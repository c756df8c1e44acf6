import IntentBuild.Json.Parser
import IntentBuild.Settings.Basic
import IntentBuild.Conversation.Turn

/-!
# Tools and their models

Four tools call a model.  A `ToolSelection` maps each of them to the name of its model.  The
identifier of a tool in calls and records names the model too, so records of one model never
serve another.
-/

namespace IntentBuild

/-- A quantity that is an integer or a floating point number. -/
inductive Quantity where
  /-- An integer. -/
  | whole (value : Int)
  /-- A floating point number. -/
  | real (value : Binary64)
deriving DecidableEq, Repr

namespace Quantity

/-- The quantity as a floating point number. -/
def toReal : Quantity → Binary64
  | .whole i => .ofInt i
  | .real x => x

/-- The two quantities have the same value. -/
def equals (a b : Quantity) : Bool := a.toReal.equals b.toReal

/-- The quantity is zero. -/
def isZero (q : Quantity) : Bool := q.toReal.isZero

/-- The quantity as a JSON number. -/
def toJson : Quantity → Json
  | .whole i => .int i
  | .real x => .float x

end Quantity

/-- The identity and the call settings of a tool. -/
structure ToolConfig where
  /-- The identifier of the tool with its model. -/
  toolId : String
  /-- The name of the model. -/
  modelName : String
  /-- The sampling temperature. -/
  temperature : Quantity := .real (.zero false)
  /-- The time that a call may take, in seconds. -/
  timeout : Int := 120
  /-- What the provider accepts. -/
  provider : Provider := ⟨true, false⟩
deriving DecidableEq, Repr

/-- A generative tool. -/
inductive Tool where
  /-- Resolves the tech stack. -/
  | techStack
  /-- Lowers specifications to intent files. -/
  | lowering
  /-- Indexes intent files. -/
  | indexer
  /-- Compiles intent files. -/
  | compiler
deriving DecidableEq, Repr

namespace Tool

/-- All tools in the order of their names. -/
def all : List Tool := [compiler, indexer, lowering, techStack]

/-- The name of a tool. -/
def name : Tool → String
  | .techStack => "tech-stack"
  | .lowering => "specs-to-intent"
  | .indexer => "indexer"
  | .compiler => "compiler"

/-- The environment variable with the model of a tool. -/
def envName : Tool → String
  | .techStack => "INTENTCODE_MODEL_TECH_STACK"
  | .lowering => "INTENTCODE_MODEL_SPECS_TO_INTENT"
  | .indexer => "INTENTCODE_MODEL_INDEXER"
  | .compiler => "INTENTCODE_MODEL_COMPILER"

/-- The names of all tools in ascending order. -/
def names : List String := all.map name

end Tool

/-- Why a selection of models is refused. -/
inductive ToolFault where
  /-- Some tools have no model. -/
  | missing (names : List String)
  /-- Some names are no tools. -/
  | unknown (names : List String)
  /-- The name of a model is blank. -/
  | emptyModel (tool : String)
  /-- A name is no tool of the selection. -/
  | unknownTool (name : String) (known : List String)
  /-- The text of the overrides is no JSON. -/
  | overridesText
  /-- The overrides are no object of texts. -/
  | overridesShape
deriving DecidableEq, Repr

/-- The wording of a fault, with that of a text that is no JSON. -/
def ToolFault.message (notJson : String) : ToolFault → String
  | .missing names => "ToolModelSelection missing tools: " ++ Text.joinWith ", " names
  | .unknown names =>
      "Unknown tools " ++ Text.joinWith ", " names ++ ". Valid tools: " ++
        Text.joinWith ", " Tool.names
  | .emptyModel tool => "ToolModelSelection tool '" ++ tool ++ "' has empty model name"
  | .unknownTool name known =>
      "Unknown tool '" ++ name ++ "'. Valid tools: " ++ Text.joinWith ", " known
  | .overridesText => "INTENTCODE_MODEL_OVERRIDES_JSON is not valid JSON: " ++ notJson
  | .overridesShape =>
      "INTENTCODE_MODEL_OVERRIDES_JSON must be a JSON object of tool -> model name"

/-- The models of the tools. -/
structure ToolSelection where
  /-- The name of the model of each tool. -/
  byTool : List (String × String)
  /-- The time that a call may take, in seconds. -/
  timeout : Int
deriving DecidableEq, Repr

namespace ToolSelection

/-- The selection with the given models: every tool has one, nothing else has one, and no name
of a model is blank. -/
def make (byTool : List (String × String)) (timeout : Int) : Except ToolFault ToolSelection :=
  let missing := Tool.names.filter fun n => !Assoc.has n byTool
  let unknown := (byTool.map Prod.fst).filter fun n => !Tool.names.contains n
  if !missing.isEmpty then .error (.missing missing)
  else if !unknown.isEmpty then .error (.unknown (Text.sortTexts unknown))
  else
    match byTool.find? fun e => !Text.hasInk e.2 with
    | some e => .error (.emptyModel e.1)
    | none => .ok ⟨byTool, timeout⟩

/-- The environment variable with the overrides. -/
def overridesName : String := "INTENTCODE_MODEL_OVERRIDES_JSON"

/-- The environment variables that a selection comes from. -/
def variableNames : List String := overridesName :: Tool.all.map Tool.envName

/-- The overrides that a text spells. -/
def overrides (raw : String) : Except ToolFault (List (String × String)) :=
  match Json.parse? raw with
  | none => .error .overridesText
  | some (.obj ms) =>
      match Json.texts? ms with
      | some entries => .ok (entries.map fun e => (e.1, Text.trim e.2))
      | none => .error .overridesShape
  | some _ => .error .overridesShape

/-- The selection that settings and environment variables give.  The variable of a tool goes
before the default model, and the overrides go before all. -/
def ofEnvironment (env : Environment) (s : Settings) : Except ToolFault ToolSelection := do
  let model (t : Tool) : String :=
    match env.get? t.envName with
    | some v => if Text.hasInk v then Text.trim v else s.defaultModel
    | none => s.defaultModel
  let configured := Tool.all.map fun t => (t.name, model t)
  let changes ←
    match env.get? overridesName with
    | some raw => if raw == "" then .ok [] else overrides raw
    | none => .ok []
  make (changes.foldl (fun m e => Assoc.set e.1 e.2 m) configured) s.timeout

/-- The call settings of a tool by its name. -/
def resolveName (sel : ToolSelection) (name : String) : Except ToolFault ToolConfig :=
  match Assoc.get? name sel.byTool with
  | some model => .ok { toolId := name ++ ":" ++ model, modelName := model, timeout := sel.timeout }
  | none => .error (.unknownTool name (Text.sortTexts (sel.byTool.map Prod.fst)))

/-- The call settings of a tool. -/
def resolve (sel : ToolSelection) (tool : Tool) : Except ToolFault ToolConfig :=
  sel.resolveName tool.name

end ToolSelection

end IntentBuild
