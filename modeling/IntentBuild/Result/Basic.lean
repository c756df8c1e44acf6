import IntentBuild.Dependency.Delta
import IntentBuild.Result.Diagnostic

/-!
# Generated results

Each generative stage has a result type.  A `ResultSchema` says how values of the type are read
from a reply, how they are written, and which diagnostics they carry.  Writing names every field
in a fixed order, with `null` for what is not set, and reading what was written gives the same
value.
-/

namespace IntentBuild

/-- How results of a type are read and written. -/
structure ResultSchema (α : Type) where
  /-- The name of the schema. -/
  name : String
  /-- Reads a result. -/
  read : Json → Reading α
  /-- Writes a result. -/
  toJson : α → Json
  /-- The diagnostics of a result. -/
  diagnostics : α → Diagnostics

/-- The result of the tech stack stage. -/
structure TechStackResult where
  /-- The diagnostics. -/
  diagnostics : Diagnostics
  /-- The extensions that the project needs, with their least versions. -/
  extensions : List (String × String)
  /-- The libraries that the project needs, with their least versions. -/
  dependencies : List (String × String)
deriving DecidableEq, Repr

namespace TechStackResult

/-- The names whose versions are unreadable, in ascending order. -/
def unreadable (deps : List (String × String)) : List String :=
  Text.sortTexts ((deps.filter fun d => !Version.isReadable d.2).map Prod.fst)

/-- Reads the dependencies, all of which have readable versions. -/
def readDependencies (v : Json) : Reading (List (String × String)) :=
  (Json.Read.map Json.Read.text v).andThen fun deps =>
    let bad := unreadable deps
    Reading.rule bad.isEmpty
      ("unreadable dependency versions: " ++ Text.joinWith ", " bad) deps

/-- Reads a result from its members. -/
def read : Json → Reading TechStackResult :=
  Json.Read.record fun ms =>
    TechStackResult.mk <$> Diagnostics.readFrom ms
      <*> Json.Read.withDefault ms "extensions" [] (Json.Read.map Json.Read.text)
      <*> Json.Read.withDefault2 ms "dependencyDeltas" "dependency_deltas" [] readDependencies

/-- The members of a result. -/
def toJson (r : TechStackResult) : Json :=
  .obj (r.diagnostics.toMembers ++
    [("extensions", .ofTexts r.extensions), ("dependencyDeltas", .ofTexts r.dependencies)])

/-- The schema of the tech stack stage. -/
def schema : ResultSchema TechStackResult := ⟨"TechStackResult", read, toJson, (·.diagnostics)⟩

end TechStackResult

/-- What an entry does to an intent file. -/
inductive IntentChange where
  /-- The file gets a content. -/
  | set
  /-- The file is deleted. -/
  | delete
deriving DecidableEq, Repr

namespace IntentChange

/-- The word of a change. -/
def text : IntentChange → String
  | .set => "set"
  | .delete => "delete"

/-- The change of a word. -/
def ofText? (s : String) : Option IntentChange := [set, delete].find? fun c => c.text == s

end IntentChange

/-- An intent file that a specification is lowered to. -/
structure IntentEntry where
  /-- The number of the project. -/
  projectNo : Int
  /-- The path below the intent directory, without blanks at its ends. -/
  relativePath : String
  /-- The content, present when the file is set. -/
  content : Option String
  /-- What happens to the file. -/
  change : IntentChange
deriving DecidableEq, Repr

namespace IntentEntry

/-- Reads a path that is not blank, without the blanks at its ends. -/
def readPath (v : Json) : Reading String :=
  (Json.Read.text v).andThen fun s =>
    Reading.rule (Text.hasInk s) "relativePath must be non-empty" (Text.trim s)

/-- A file that is set has a content. -/
def check (e : IntentEntry) : Reading IntentEntry :=
  Reading.rule (e.change != .set || e.content.isSome)
    ("intent file " ++ Text.quoted e.relativePath ++ " has fileDelta=set but no content") e

/-- Reads an entry from its members. -/
def read : Json → Reading IntentEntry :=
  Json.Read.record fun ms =>
    (IntentEntry.mk <$> Json.Read.required2 ms "projectNo" "project_no" Json.Read.integer
      <*> Json.Read.required2 ms "relativePath" "relative_path" readPath
      <*> Json.Read.optionalField ms "content" Json.Read.text
      <*> Json.Read.withDefault2 ms "fileDelta" "file_delta" .set
        (Json.Read.word IntentChange.ofText?)).andThen check

/-- The members of an entry. -/
def toJson (e : IntentEntry) : Json :=
  .obj [("projectNo", .int e.projectNo), ("relativePath", .str e.relativePath),
    ("content", .ofText? e.content), ("fileDelta", .str e.change.text)]

end IntentEntry

/-- The result of lowering a specification to intent files. -/
structure LoweringResult where
  /-- The diagnostics. -/
  diagnostics : Diagnostics
  /-- The intent files. -/
  files : List IntentEntry
deriving DecidableEq, Repr

namespace LoweringResult

/-- Reads a result from its members. -/
def read : Json → Reading LoweringResult :=
  Json.Read.record fun ms =>
    LoweringResult.mk <$> Diagnostics.readFrom ms
      <*> Json.Read.withDefault2 ms "intentFiles" "intent_files" []
        (Json.Read.list IntentEntry.read)

/-- The members of a result. -/
def toJson (r : LoweringResult) : Json :=
  .obj (r.diagnostics.toMembers ++ [("intentFiles", .arr (r.files.map IntentEntry.toJson))])

/-- The schema of the lowering stage. -/
def schema : ResultSchema LoweringResult :=
  ⟨"SpecsToIntentResult", read, toJson, (·.diagnostics)⟩

end LoweringResult

/-- The result of indexing an intent file. -/
structure IndexResult where
  /-- The diagnostics. -/
  diagnostics : Diagnostics
  /-- The tree, an object or a list. -/
  tree : Json
deriving Repr

namespace IndexResult

/-- Reads a tree, which is an object or a list. -/
def readTree : Json → Reading Json
  | .obj ms => .ok (.obj ms)
  | .arr vs => .ok (.arr vs)
  | _ => .bad [⟨[.key "dict[str,any]"], .notMap⟩, ⟨[.key "list[any]"], .notList⟩]

/-- Reads a result from its members. -/
def read : Json → Reading IndexResult :=
  Json.Read.record fun ms =>
    IndexResult.mk <$> Diagnostics.readFrom ms
      <*> Json.Read.required2 ms "astTree" "ast_tree" readTree

/-- The members of a result.  A number that is not finite is written as `null`. -/
def toJson (r : IndexResult) : Json :=
  .obj (r.diagnostics.toMembers ++ [("astTree", r.tree.finite)])

/-- The schema of the indexing stage. -/
def schema : ResultSchema IndexResult := ⟨"IndexResult", read, toJson, (·.diagnostics)⟩

end IndexResult

/-- An assumption that a compilation rests on. -/
structure Assumption where
  /-- What is assumed. -/
  text : String
  /-- How much rests on it. -/
  level : Option String
deriving DecidableEq, Repr

namespace Assumption

/-- Reads an assumption from its members. -/
def read : Json → Reading Assumption :=
  Json.Read.record fun ms =>
    Assumption.mk <$> Json.Read.required ms "text" Json.Read.text
      <*> Json.Read.optionalField ms "level" Json.Read.text

/-- The members of an assumption. -/
def toJson (a : Assumption) : Json := .obj [("text", .str a.text), ("level", .ofText? a.level)]

end Assumption

/-- The result of compiling an intent file. -/
structure CompileResult where
  /-- The diagnostics. -/
  diagnostics : Diagnostics
  /-- What the compilation assumes. -/
  assumptions : List Assumption
  /-- A corrected intent file. -/
  correctedIntent : Option String
  /-- The source file. -/
  source : Option String
  /-- The changes of the dependencies of the file. -/
  deltas : List DependencyDelta
deriving DecidableEq, Repr

namespace CompileResult

/-- Reads a result from its members. -/
def read : Json → Reading CompileResult :=
  Json.Read.record fun ms =>
    CompileResult.mk <$> Diagnostics.readFrom ms
      <*> Json.Read.withDefault ms "assumptions" [] (Json.Read.list Assumption.read)
      <*> Json.Read.optionalField2 ms "fixedIntentNotation" "fixed_intent_notation"
        Json.Read.text
      <*> Json.Read.optionalField2 ms "targetSource" "target_source" Json.Read.text
      <*> Json.Read.withDefault2 ms "dependencyDeltas" "dependency_deltas" []
        (Json.Read.list DependencyDelta.read)

/-- The members of a result, with or without its source file. -/
def toMembers (withSource : Bool) (r : CompileResult) : Members :=
  r.diagnostics.toMembers ++
    [("assumptions", .arr (r.assumptions.map Assumption.toJson)),
      ("fixedIntentNotation", .ofText? r.correctedIntent)] ++
    (if withSource then [("targetSource", .ofText? r.source)] else []) ++
    [("dependencyDeltas", .arr (r.deltas.map DependencyDelta.toJson))]

/-- The members of a result. -/
def toJson (r : CompileResult) : Json := .obj (r.toMembers true)

/-- The schema of the compiling stage. -/
def schema : ResultSchema CompileResult := ⟨"CompileResult", read, toJson, (·.diagnostics)⟩

end CompileResult

end IntentBuild
