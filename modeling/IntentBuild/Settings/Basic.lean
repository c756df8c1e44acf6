import IntentBuild.Json.Basic
import IntentBuild.Path
import IntentBuild.Text.Blank
import IntentBuild.Text.IntegerLiteral
import IntentBuild.Text.Quoted

/-!
# Settings

The settings of a build come from environment variables, each with a default and bounds.
`Settings.normalize` checks the rules that hold for settings from any source.
-/

namespace IntentBuild

/-- Environment variables with their values. -/
abbrev Environment := List (String × String)

/-- The value of an environment variable. -/
def Environment.get? (env : Environment) (name : String) : Option String :=
  (env.find? fun e => e.1 == name).map Prod.snd

/-- Why settings are refused. -/
inductive SettingsFault where
  /-- A value is blank. -/
  | blank (name : String)
  /-- A value is no integer. -/
  | notInteger (name value : String)
  /-- A value is below its least value. -/
  | below (name : String) (least value : Int)
  /-- A value is above its greatest value. -/
  | above (name : String) (greatest value : Int)
deriving DecidableEq, Repr

/-- The wording of a fault. -/
def SettingsFault.message : SettingsFault → String
  | .blank name => name ++ " must be non-empty"
  | .notInteger name value => name ++ " must be an integer, got: " ++ Text.quoted value
  | .below name least value =>
      name ++ " must be >= " ++ Text.ofInt least ++ ", got: " ++ Text.ofInt value
  | .above name greatest value =>
      name ++ " must be <= " ++ Text.ofInt greatest ++ ", got: " ++ Text.ofInt value

/-- The settings of a build. -/
structure Settings where
  /-- The directory of the store. -/
  storeRoot : String := "state_store"
  /-- The instance that new nodes belong to. -/
  instanceId : String := "default"
  /-- The model of every tool without one of its own. -/
  defaultModel : String := "gpt-4o-mini"
  /-- The time that a call may take, in seconds. -/
  timeout : Int := 120
  /-- How many units run at a time. -/
  maxConcurrency : Int := 1
  /-- How many records a node keeps for a tool. -/
  historyLimit : Int := 5
  /-- How many steps a build may take. -/
  recursionLimit : Int := 1000
  /-- How often a build may plan anew. -/
  maxReplans : Int := 5
deriving DecidableEq, Repr, Inhabited

namespace Settings

/-- A check that a condition holds. -/
def demand (holds : Bool) (fault : SettingsFault) : Except SettingsFault Unit :=
  if holds then .ok () else .error fault

/-- Checks the rules of settings, and drops the blanks around the names. -/
def normalize (s : Settings) : Except SettingsFault Settings := do
  demand (Text.hasInk s.defaultModel) (.blank "INTENTCODE_DEFAULT_MODEL")
  demand (Text.hasInk s.instanceId) (.blank "INTENTCODE_INSTANCE_ID")
  demand (Text.hasInk s.storeRoot) (.blank "INTENTCODE_STATE_STORE_ROOT")
  demand (s.recursionLimit ≤ 100000) (.above "INTENTCODE_RECURSION_LIMIT" 100000 s.recursionLimit)
  demand (1 ≤ s.maxConcurrency) (.below "INTENTCODE_MAX_CONCURRENCY" 1 s.maxConcurrency)
  demand (1 ≤ s.historyLimit) (.below "INTENTCODE_GENERATION_HISTORY_LIMIT" 1 s.historyLimit)
  return { s with
    instanceId := Text.trim s.instanceId
    defaultModel := Text.trim s.defaultModel }

/-- The integer of an environment variable within bounds, or its default. -/
def integer (env : Environment) (name : String) (default least greatest : Int) :
    Except SettingsFault Int :=
  match env.get? name with
  | none => .ok default
  | some raw =>
      match Text.readInteger? raw with
      | none => .error (.notInteger name raw)
      | some i => do
          demand (least ≤ i) (.below name least i)
          demand (i ≤ greatest) (.above name greatest i)
          return i

/-- The bound of integers that have none of their own. -/
def wide : Int := 10000000

/-- The environment variables that settings come from. -/
def variableNames : List String :=
  ["INTENTCODE_STATE_STORE_ROOT", "INTENTCODE_INSTANCE_ID", "INTENTCODE_DEFAULT_MODEL",
    "INTENTCODE_LLM_TIMEOUT_SECONDS", "INTENTCODE_MAX_CONCURRENCY",
    "INTENTCODE_GENERATION_HISTORY_LIMIT", "INTENTCODE_RECURSION_LIMIT", "INTENTCODE_MAX_REPLANS"]

/-- The settings that environment variables give. -/
def ofEnvironment (env : Environment) : Except SettingsFault Settings := do
  let timeout ← integer env "INTENTCODE_LLM_TIMEOUT_SECONDS" 120 1 3600
  let maxConcurrency ← integer env "INTENTCODE_MAX_CONCURRENCY" 1 1 64
  let historyLimit ← integer env "INTENTCODE_GENERATION_HISTORY_LIMIT" 5 1 wide
  let recursionLimit ← integer env "INTENTCODE_RECURSION_LIMIT" 1000 25 wide
  let maxReplans ← integer env "INTENTCODE_MAX_REPLANS" 5 0 100
  normalize
    { storeRoot := (env.get? "INTENTCODE_STATE_STORE_ROOT").getD "state_store"
      instanceId := (env.get? "INTENTCODE_INSTANCE_ID").getD "default"
      defaultModel := (env.get? "INTENTCODE_DEFAULT_MODEL").getD "gpt-4o-mini"
      timeout, maxConcurrency, historyLimit, recursionLimit, maxReplans }

/-- The settings that the members of a JSON object give, with defaults for the others. -/
def ofJson (v : Json) : Settings :=
  let text (k d : String) : String := (v.get k).text?.getD d
  let int (k : String) (d : Int) : Int := (v.get k).int?.getD d
  { storeRoot := text "state_store_root" "state_store"
    instanceId := text "instance_id" "default"
    defaultModel := text "default_model" "gpt-4o-mini"
    timeout := int "llm_timeout_seconds" 120
    maxConcurrency := int "max_concurrency" 1
    historyLimit := int "generation_history_limit" 5
    recursionLimit := int "recursion_limit" 1000
    maxReplans := int "max_replans" 5 }

/-- The settings as a JSON object. -/
def toJson (s : Settings) : Json :=
  .obj [("state_store_root", .str s.storeRoot), ("instance_id", .str s.instanceId),
    ("default_model", .str s.defaultModel), ("llm_timeout_seconds", .int s.timeout),
    ("max_concurrency", .int s.maxConcurrency), ("generation_history_limit", .int s.historyLimit),
    ("recursion_limit", .int s.recursionLimit), ("max_replans", .int s.maxReplans)]

/-- The directory of the store, seen from a base directory. -/
def storePath (s : Settings) (base : Path) : Path := base.join (Path.ofText s.storeRoot)

end Settings

end IntentBuild
