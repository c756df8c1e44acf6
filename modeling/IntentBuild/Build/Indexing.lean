import IntentBuild.Build.Stage

/-!
# Indexing intent files

Every intent file with a target is indexed.  The tree of a file is kept in a node below the node
of the file.
-/

namespace IntentBuild.Indexing

/-- The name of the node of the result. -/
def dataName : String := "Indexed data"

/-- An intent file with a target. -/
structure IntentFile where
  /-- The path. -/
  path : Path
  /-- The path below the intent directory. -/
  relative : String
  /-- The target extension. -/
  target : String

/-- The intent file at a path, if it has a target. -/
def intentFile? (c : BuildContext) (path : Path) : Op (Option IntentFile) := do
  let relative ← Graph.relativePath c.project.intent path.text
  match path.targetExtension? with
  | some target => return some { path, relative, target }
  | none => Op.notify (.noTarget relative); return none

/-- The intent files with a target. -/
def intentFiles (c : BuildContext) : Op (List IntentFile) := do
  return (← (← Stage.markdownFiles c.project.intent).mapM (intentFile? c)).filterMap id

/-- The node of an intent file. -/
def fileNode (c : BuildContext) (f : IntentFile) : Op Node :=
  Graph.placeOf c.project.intent f.path.text Graph.intentKind

/-- Applies a result for the intent file of a node. -/
def apply (file : Node) (r : IndexResult) : Op Unit := do
  let _ ← Graph.upsertDerived file .indexedData dataName r.toJson.members? .keep

/-- The unit of work for an intent file. -/
def work (c : BuildContext) (tool : ToolConfig) (f : IntentFile) : Op (Work IndexResult) := do
  let file ← fileNode c f
  let text ← Op.readText f.path
  return {
    label := "index " ++ f.relative
    tool
    role := Prompt.indexerRole
    prompt := pure (Prompt.index f.relative f.target text (c.skillText f.target))
    node := Graph.getOrCreate (some file) .indexedData dataName none
    schema := IndexResult.schema
    check := fun _ _ => .ok ()
    steps := fun r => [apply file r]
    source := some f.path }

/-- The units of work of the stage. -/
def works (c : BuildContext) : Op (List (Work IndexResult)) := do
  Stage.pruneMissing c c.project.intent Graph.intentKind
  let tool ← c.toolConfig .indexer
  (← intentFiles c).mapM (work c tool)

/-- Runs the stage. -/
def run (c : BuildContext) : Op StageReport := do
  return .ofUnits .indexing (← Work.runAll (← works c) c.runner)

end IntentBuild.Indexing
