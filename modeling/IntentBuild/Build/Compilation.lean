import IntentBuild.Build.Indexing

/-!
# Compiling intent files

Every intent file with a target is compiled to a source file of the same path without the last
ending.  The prompt shows the trees of all intent files and the dependencies that were last
written.  A result changes the dependencies that the file declares.
-/

namespace IntentBuild.Compilation

/-- The name of the node of the result. -/
def dataName : String := "Compiler data"

/-- A result has a source or errors. -/
def check (r : CompileResult) : Except StageRejection Unit :=
  if r.source.isNone && r.diagnostics.errors.isEmpty then .error .nothingCompiled else .ok ()

/-- The text of a source file: it ends in exactly one line break. -/
def sourceText (s : String) : String :=
  String.ofList ((s.toList.reverse.dropWhile (· == '\n')).reverse ++ ['\n'])

/-- Writes the source file for an intent file, and links their nodes. -/
def applySource (c : BuildContext) (file : Node) (relative source : String) : Op Unit := do
  let path := (← Graph.pathOf c.project.source).child (Path.withoutIntentSuffix relative)
  let text := sourceText source
  let _ ← Op.writeIfChanged path text
  let n ← Graph.placeOf c.project.source path.text Graph.sourceKind
  let _ ← Graph.setContent n (.put (some text)) .keep .keep
  let _ ← Graph.link file n .implements ""

/-- The content of an intent file after a result: the corrected one, if the result has one that
is not empty. -/
def intentContent (r : CompileResult) (intentText : String) : String :=
  Prompt.orElse (r.correctedIntent.getD "") intentText

/-- Changes the dependencies that an intent file declares. -/
def declare (c : BuildContext) (file : Node) (r : CompileResult) : Op Unit := do
  let _ ← Manifest.applyDeltas c.project.node file r.deltas

/-- Keeps a result in the node of its intent file and below it. -/
def keep (file : Node) (intentText : String) (r : CompileResult) : Op Unit := do
  let _ ← Graph.setContent file (.put (some (intentContent r intentText))) .keep .keep
  let _ ← Graph.upsertDerived file .compilerData dataName (some (r.toMembers false)) .keep

/-- Applies a result for the intent file of a node: to its source file, if the result has one, to
the dependencies, and to the node itself. -/
def steps (c : BuildContext) (file : Node) (relative intentText : String) (r : CompileResult) :
    List (Op Unit) :=
  (r.source.map (applySource c file relative)).toList ++
    [declare c file r, keep file intentText r]

/-- What all units of the stage share. -/
structure Shared where
  /-- The call settings of the tool. -/
  tool : ToolConfig
  /-- The trees of the intent files. -/
  indexed : Members
  /-- The dependencies that were last written. -/
  deps : Dependencies

/-- The unit of work for an intent file with its node. -/
def work (c : BuildContext) (s : Shared) (f : Indexing.IntentFile × Node) :
    Op (Work CompileResult) := do
  let (f, file) := f
  let text ← Op.readText f.path
  return {
    label := "compile " ++ f.relative
    tool := s.tool
    role := Prompt.compilerRole
    prompt := pure (Prompt.compile f.relative f.target text s.indexed s.deps
      (c.skillText f.target) c.extensions)
    node := Graph.getOrCreate (some file) .compilerData dataName none
    schema := CompileResult.schema
    check := fun _ r => check r
    steps := steps c file f.relative text
    source := some f.path }

/-- The tree of an intent file, if it was indexed. -/
def indexedTree? (f : Indexing.IntentFile × Node) : Op (Option (String × Json)) := do
  match ← Graph.child? (some f.2) .indexedData Indexing.dataName with
  | some n =>
      match n.json with
      | some ms => return some (f.1.relative, (Assoc.get? "astTree" ms).getD .null)
      | none => return none
  | none => return none

/-- The units of work of the stage. -/
def works (c : BuildContext) : Op (List (Work CompileResult)) := do
  let files ← (← Indexing.intentFiles c).mapM fun f => return (f, ← Indexing.fileNode c f)
  let indexed := (← files.mapM indexedTree?).filterMap id
  let deps ← DepsFile.synced c.project.node
  let tool ← c.toolConfig .compiler
  files.mapM (work c { tool, indexed := Text.sortByKey indexed, deps })

/-- Runs the stage. -/
def run (c : BuildContext) : Op StageReport := do
  return .ofUnits .compilation (← Work.runAll (← works c) c.runner)

end IntentBuild.Compilation
