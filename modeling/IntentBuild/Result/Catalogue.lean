import IntentBuild.Extension.Spec
import IntentBuild.Result.Basic

/-!
# The catalogue of schemas

`Shape` names every schema of generated values, and `Shaped` is a value of one of them.  A value
fits a shape when it has that shape, and a result of any stage also fits the shape of the
diagnostics that all results share.
-/

namespace IntentBuild

/-- A schema of generated values. -/
inductive Shape where
  /-- A diagnostic. -/
  | diagnostic
  /-- An assumption. -/
  | assumption
  /-- A dependency delta. -/
  | delta
  /-- The diagnostics of any result. -/
  | diagnostics
  /-- The result of the tech stack stage. -/
  | techStack
  /-- An entry of a lowering. -/
  | intentEntry
  /-- The result of the lowering stage. -/
  | lowering
  /-- The result of the indexing stage. -/
  | index
  /-- The result of the compiling stage. -/
  | compilation
  /-- An extension. -/
  | extension
deriving DecidableEq, Repr

/-- A value of one of the schemas. -/
inductive Shaped where
  /-- A diagnostic. -/
  | diagnostic (value : Diagnostic)
  /-- An assumption. -/
  | assumption (value : Assumption)
  /-- A dependency delta. -/
  | delta (value : DependencyDelta)
  /-- The diagnostics of any result. -/
  | diagnostics (value : Diagnostics)
  /-- The result of the tech stack stage. -/
  | techStack (value : TechStackResult)
  /-- An entry of a lowering. -/
  | intentEntry (value : IntentEntry)
  /-- The result of the lowering stage. -/
  | lowering (value : LoweringResult)
  /-- The result of the indexing stage. -/
  | index (value : IndexResult)
  /-- The result of the compiling stage. -/
  | compilation (value : CompileResult)
  /-- An extension. -/
  | extension (value : ExtensionSpec)

namespace Shape

/-- All shapes. -/
def all : List Shape :=
  [diagnostic, assumption, delta, diagnostics, techStack, intentEntry, lowering, index,
    compilation, extension]

/-- The name of a schema. -/
def name : Shape → String
  | .diagnostic => "Message"
  | .assumption => "Assumption"
  | .delta => "DependencyDelta"
  | .diagnostics => "StageResult"
  | .techStack => "TechStackResult"
  | .intentEntry => "IntentFileEntry"
  | .lowering => "SpecsToIntentResult"
  | .index => "IndexResult"
  | .compilation => "CompileResult"
  | .extension => "ExtensionSpec"

/-- The schema of a name. -/
def ofName? (s : String) : Option Shape := all.find? fun k => k.name == s

/-- Reads a value of a shape. -/
def read : Shape → Json → Reading Shaped
  | .diagnostic, v => (Diagnostic.read v).map .diagnostic
  | .assumption, v => (Assumption.read v).map .assumption
  | .delta, v => (DependencyDelta.read v).map .delta
  | .diagnostics, v => (Json.Read.record Diagnostics.readFrom v).map .diagnostics
  | .techStack, v => (TechStackResult.read v).map .techStack
  | .intentEntry, v => (IntentEntry.read v).map .intentEntry
  | .lowering, v => (LoweringResult.read v).map .lowering
  | .index, v => (IndexResult.read v).map .index
  | .compilation, v => (CompileResult.read v).map .compilation
  | .extension, v => (ExtensionSpec.read v).map .extension

end Shape

namespace Shaped

/-- The shape of a value. -/
def shape : Shaped → Shape
  | .diagnostic _ => .diagnostic
  | .assumption _ => .assumption
  | .delta _ => .delta
  | .diagnostics _ => .diagnostics
  | .techStack _ => .techStack
  | .intentEntry _ => .intentEntry
  | .lowering _ => .lowering
  | .index _ => .index
  | .compilation _ => .compilation
  | .extension _ => .extension

/-- The members of a value. -/
def toJson : Shaped → Json
  | .diagnostic d => d.toJson
  | .assumption a => a.toJson
  | .delta d => d.toJson
  | .diagnostics d => .obj d.toMembers
  | .techStack r => r.toJson
  | .intentEntry e => e.toJson
  | .lowering r => r.toJson
  | .index r => r.toJson
  | .compilation r => r.toJson
  | .extension e => e.toJson

/-- The diagnostics that a value carries. -/
def carried : Shaped → Diagnostics
  | .diagnostics d => d
  | .techStack r => r.diagnostics
  | .lowering r => r.diagnostics
  | .index r => r.diagnostics
  | .compilation r => r.diagnostics
  | _ => ⟨[], []⟩

/-- The value is a result of a stage. -/
def isResult : Shaped → Bool
  | .diagnostics _ | .techStack _ | .lowering _ | .index _ | .compilation _ => true
  | _ => false

/-- The value has the shape, or is a result where any result will do. -/
def fits (v : Shaped) (k : Shape) : Bool :=
  v.shape == k || (k == .diagnostics && v.isResult)

end Shaped

/-- The schema of a shape, for results of any stage. -/
def Shape.schema (k : Shape) : ResultSchema Shaped :=
  ⟨k.name, k.read, Shaped.toJson, Shaped.carried⟩

end IntentBuild
