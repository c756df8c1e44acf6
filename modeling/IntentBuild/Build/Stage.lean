import IntentBuild.Build.Row
import IntentBuild.Conversation.Prompt
import IntentBuild.Dependency.DepsFile
import IntentBuild.Extension.Registry
import IntentBuild.Project

/-!
# Stages of a build

A stage turns files of a project into units of work, runs them, and reports what they did.  This
module has what the stages share: the context of a build, the report of a stage, and the removal
of nodes whose files are gone.
-/

namespace IntentBuild

/-- A stage of a build. -/
inductive Stage where
  /-- Resolves the tech stack. -/
  | techStack
  /-- Lowers the specifications to intent files. -/
  | lowering
  /-- Brings the file of the dependencies up to date. -/
  | refresh
  /-- Indexes the intent files. -/
  | indexing
  /-- Compiles the intent files. -/
  | compilation
deriving DecidableEq, Repr

namespace Stage

/-- All stages. -/
def all : List Stage := [techStack, lowering, refresh, indexing, compilation]

/-- The words of a stage. -/
def text : Stage → String
  | .techStack => "resolve tech stack"
  | .lowering => "lower specs to intent"
  | .refresh => "refresh dependencies"
  | .indexing => "index intent"
  | .compilation => "compile intent"

/-- The stage of some words. -/
def ofText? (s : String) : Option Stage := all.find? fun t => t.text == s

end Stage

/-- What a stage did. -/
structure StageReport where
  /-- The stage. -/
  stage : Stage
  /-- The dependencies changed. -/
  depsUpdated : Bool := false
  /-- How many units ran. -/
  units : Nat := 0
  /-- How many of them took their result from the cache. -/
  cacheHits : Nat := 0
  /-- How many of them called the model. -/
  generated : Nat := 0
deriving DecidableEq, Repr

namespace StageReport

/-- The report of a stage whose units gave these reports. -/
def ofUnits {ρ : Type} (stage : Stage) (us : List (UnitReport ρ)) : StageReport :=
  let hits := (us.filter fun u => u.cached).length
  { stage, units := us.length, cacheHits := hits, generated := us.length - hits }

/-- The report as a row: the stage, whether the dependencies changed, and the counts. -/
def toJson (r : StageReport) : Json :=
  .arr [.str r.stage.text, .bool r.depsUpdated, .ofNat r.units, .ofNat r.cacheHits,
    .ofNat r.generated]

end StageReport

/-- What stays the same during a build. -/
structure BuildContext where
  /-- The project. -/
  project : Project
  /-- The extensions that are installed into it. -/
  extensions : List ExtensionSpec
  /-- The models of the tools. -/
  tools : ToolSelection
  /-- What units need to run. -/
  runner : Runner

namespace BuildContext

/-- The call settings of a tool. -/
def toolConfig (c : BuildContext) (t : Tool) : Op ToolConfig := Op.lift .tool (c.tools.resolve t)

/-- The guidance for a target. -/
def skillText (c : BuildContext) (target : String) : String :=
  ExtensionSpec.skillText c.extensions target

end BuildContext

namespace Stage

/-- The name of the specification of the tech stack. -/
def techStackFile : String := "tech-stack.md"

/-- The ending of specifications and intent files. -/
def markdown : String := ".md"

/-- The shown files below the directory of a node with the ending of specifications. -/
def markdownFiles (root : Node) : Op (List Path) := do
  return (← Op.files).listFiles (← Graph.pathOf root) markdown

/-- Deletes the node of a file that is gone, and what only this file declared. -/
def forget (c : BuildContext) (n : Node) : Op Unit := do
  let _ ← Graph.cascadeDelete n true
  let _ ← Manifest.reconcile c.project.node

/-- Deletes the file nodes below a root whose files are gone. -/
def pruneMissing (c : BuildContext) (root : Node) (kind : Graph.FileKind) : Op Unit := do
  for (path, n) in ← Graph.fileNodes root kind do
    if !(← Op.isFile path) then forget c n

end Stage

end IntentBuild
