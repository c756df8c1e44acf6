import IntentBuild.Build.TechStack

/-!
# Lowering specifications to intent files

Every specification but that of the tech stack is lowered to intent files.  A result names files
below the intent directory, each to be set to a content or to be deleted.  A result is rejected
when it names another project, or a path that is not a relative path of an intent file.
-/

namespace IntentBuild.Lowering

/-- The name of the node of the result. -/
def dataName : String := "Intent lowering"

/-- The number of the project in results. -/
def projectNo : Int := 1

/-- The projects by their numbers, for the prompt. -/
def projects (c : BuildContext) : List (Int × String) := [(projectNo, c.project.node.name)]

/-- An entry names the project and a relative path of an intent file. -/
def checkEntry (e : IntentEntry) : Except StageRejection Unit :=
  let path := Path.ofText e.relativePath
  if e.projectNo != projectNo then .error (.unknownProject e.relativePath e.projectNo)
  else if path.isAbsolute || path.names.any Graph.isHollow then
    .error (.notRelative e.relativePath)
  else if path.suffix != Stage.markdown then .error (.otherSuffix e.relativePath)
  else .ok ()

/-- All entries of a result are in order. -/
def check (r : LoweringResult) : Except StageRejection Unit := r.files.forM checkEntry

/-- Applies an entry: sets or deletes its file, and the node of the file with it. -/
def applyEntry (c : BuildContext) (e : IntentEntry) : Op Unit := do
  let full := (← Graph.pathOf c.project.intent).child e.relativePath
  match e.change with
  | .delete =>
      if ← Op.isFile full then Op.setFiles ((← Op.files).removeFile full)
      match ← Graph.findPlaceOf c.project.intent full.text Graph.intentKind with
      | some n => Stage.forget c n
      | none => return ()
  | .set =>
      match e.content with
      | none => throw (.graph (.noContent e.relativePath))
      | some text =>
          let _ ← Op.writeIfChanged full text
          let _ ← Graph.placeOf c.project.intent full.text Graph.intentKind

/-- Keeps a result below the node of its specification. -/
def keep (file : Node) (r : LoweringResult) : Op Unit := do
  let _ ← Graph.upsertDerived file .loweringData dataName r.toJson.members? .keep

/-- Applies a result for the specification of a node: entry by entry, and then the whole result is
kept. -/
def steps (c : BuildContext) (file : Node) (r : LoweringResult) : List (Op Unit) :=
  r.files.map (applyEntry c) ++ [keep file r]

/-- The unit of work for a specification. -/
def work (c : BuildContext) (tool : ToolConfig) (techStack : Option Members) (path : Path) :
    Op (Work LoweringResult) := do
  let file ← Graph.placeOf c.project.specs path.text Graph.specKind
  let relative ← Graph.relativePath c.project.specs path.text
  let text ← Op.readText path
  return {
    label := "specs " ++ relative
    tool
    role := Prompt.loweringRole
    prompt := pure (Prompt.lowering relative text (projects c) techStack c.extensions)
    node := Graph.getOrCreate (some file) .loweringData dataName none
    schema := LoweringResult.schema
    check := fun _ r => check r
    steps := steps c file
    source := some path }

/-- The units of work of the stage. -/
def works (c : BuildContext) : Op (List (Work LoweringResult)) := do
  let files ← Stage.markdownFiles c.project.specs
  let specs := files.filter fun p => p.name != Stage.techStackFile
  Stage.pruneMissing c c.project.specs Graph.specKind
  let techStack ← TechStack.current c
  let tool ← c.toolConfig .lowering
  specs.mapM (work c tool techStack)

/-- Runs the stage. -/
def run (c : BuildContext) : Op StageReport := do
  return .ofUnits .lowering (← Work.runAll (← works c) c.runner)

end IntentBuild.Lowering
