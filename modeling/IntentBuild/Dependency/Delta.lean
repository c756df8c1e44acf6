import IntentBuild.Schema.Reading
import IntentBuild.Version.Range

/-!
# Dependency deltas

A file declares its dependencies by deltas.  A delta adds a name with a least version, or
removes a name.  An added name has a version that is not blank, and every version given is
readable.
-/

namespace IntentBuild

/-- What a delta does to the dependencies of a file. -/
inductive DeltaOperation where
  /-- The name is declared. -/
  | add
  /-- The name is declared no more. -/
  | remove
deriving DecidableEq, Repr

namespace DeltaOperation

/-- The word of an operation. -/
def text : DeltaOperation → String
  | .add => "add"
  | .remove => "remove"

/-- The operation of a word. -/
def ofText? (s : String) : Option DeltaOperation :=
  [add, remove].find? fun o => o.text == s

end DeltaOperation

/-- A change of the dependencies of a file. -/
structure DependencyDelta where
  /-- What happens to the name. -/
  operation : DeltaOperation
  /-- The name of the dependency. -/
  name : String
  /-- The least version. -/
  minVersion : Option String
deriving DecidableEq, Repr

namespace DependencyDelta

/-- An added name has a version with ink. -/
def hasVersion (d : DependencyDelta) : Bool :=
  d.operation != .add || Text.hasInk (d.minVersion.getD "")

/-- The version, if given, is readable. -/
def readable (d : DependencyDelta) : Bool :=
  match d.minVersion with
  | some v => Version.isReadable v
  | none => true

/-- The rules of a delta as a whole. -/
def check (d : DependencyDelta) : Reading DependencyDelta :=
  (Reading.rule d.hasVersion ("dependency delta 'add " ++ d.name ++ "' is missing minVersion")
    d).andThen fun d =>
      Reading.rule d.readable
        ("dependency delta '" ++ d.name ++ "' has an unreadable minVersion " ++
          Text.quoted (d.minVersion.getD "")) d

/-- Reads a delta from its members. -/
def read : Json → Reading DependencyDelta :=
  Json.Read.record fun ms =>
    (DependencyDelta.mk
      <$> Json.Read.required ms "operation" (Json.Read.word DeltaOperation.ofText?)
      <*> Json.Read.required ms "name" Json.Read.nonempty
      <*> Json.Read.optionalField2 ms "minVersion" "min_version" Json.Read.text).andThen check

/-- The members of a delta. -/
def toJson (d : DependencyDelta) : Json :=
  .obj [("operation", .str d.operation.text), ("name", .str d.name),
    ("minVersion", .ofText? d.minVersion)]

end DependencyDelta

end IntentBuild
