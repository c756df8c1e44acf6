import IntentBuild.Build.Stage

/-!
# Resolving the tech stack

A project may have one specification of its tech stack.  Its result names the extensions and the
libraries that the project needs.  It is written to `.intentcode/tech-stack.json`, and the
libraries become the declared dependencies of the specification.
-/

namespace IntentBuild.TechStack

/-- The name of the node of the result. -/
def dataName : String := "Tech stack"

/-- The file of the result. -/
def summaryPath (project : Node) : Op Path :=
  return (← DepsFile.directory project).child "tech-stack.json"

/-- The members of the file of a result. -/
def summary (r : TechStackResult) : Members :=
  [("extensions", .ofTexts r.extensions), ("deps", .ofTexts r.dependencies)]

/-- Applies a result for the specification of a node. -/
def apply (c : BuildContext) (file : Node) (r : TechStackResult) : Op Unit := do
  let _ ← Op.writeObject (← summaryPath c.project.node) (summary r)
  let _ ← Graph.upsertDerived file .techStackData dataName r.toJson.members? .keep
  let _ ← Manifest.replaceDeclared c.project.node file r.dependencies
  for u in ExtensionSpec.missing c.extensions r.extensions do Op.notify (.unmet u)

/-- The unit of work for a specification. -/
def work (c : BuildContext) (tool : ToolConfig) (path : Path) (file : Node) :
    Work TechStackResult :=
  { label := "tech stack (" ++ path.name ++ ")"
    tool
    role := Prompt.techStackRole
    prompt := do return Prompt.techStack (← Op.readText path) c.extensions
    node := Graph.getOrCreate (some file) .techStackData dataName none
    schema := TechStackResult.schema
    check := fun _ _ => .ok ()
    steps := fun r => [apply c file r]
    source := some path }

/-- Runs the stage. -/
def run (c : BuildContext) : Op StageReport := do
  let files ← Stage.markdownFiles c.project.specs
  match files.filter fun p => p.name == Stage.techStackFile with
  | [] => return { stage := .techStack }
  | [path] =>
      let file ← Graph.placeOf c.project.specs path.text Graph.specKind
      let tool ← c.toolConfig .techStack
      return .ofUnits .techStack (← Work.runAll [work c tool path file] c.runner)
  | paths => throw (.build (.techStacks paths))

/-- The last result, as the file of the result has it. -/
def current (c : BuildContext) : Op (Option Members) := do
  let path ← summaryPath c.project.node
  if ← Op.isFile path then return some (← Op.readObject path) else return none

end IntentBuild.TechStack
