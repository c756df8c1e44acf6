import IntentBuild.Graph.Place

/-!
# Projects

A project has a name, a directory, and three root nodes for the directories of its
specifications, its intent files and its source files.  Setting up a project twice with the same
directory changes nothing.
-/

namespace IntentBuild

/-- A project with its roots. -/
structure Project where
  /-- The node of the project. -/
  node : Node
  /-- The root of the specifications. -/
  specs : Node
  /-- The root of the intent files. -/
  intent : Node
  /-- The root of the source files. -/
  source : Node

namespace Project

/-- The name of the root of the specifications. -/
def specsName : String := "Specs"

/-- The name of the root of the intent files. -/
def intentName : String := "Intent"

/-- The name of the root of the source files. -/
def sourceName : String := "Source"

/-- The structured content of a node with a path. -/
def pathMembers (p : Path) : Members := [("path", .str p.text)]

/-- A root of a project, made if need be. -/
def root (project : Node) (type : NodeType) (name : String) (p : Path) : Op Node :=
  Graph.getOrCreate (some project) type name (some (pathMembers p))

/-- The nodes of a project with a name and a directory, made if need be. -/
def nodes (name : String) (path : Path) : Op Project :=
  Op.transaction do
    let node ← Graph.getOrCreate none .project name (some (pathMembers path))
    let known ← Graph.path? node
    if known != some path then throw (.project (.elsewhere name known))
    let specs ← root node .specsRoot specsName (path.child "specs")
    let intent ← root node .intentRoot intentName (path.child "intent")
    let source ← root node .sourceRoot sourceName (path.child "src")
    let _ ← Graph.link intent source .implements ""
    return { node, specs, intent, source }

/-- Sets up a project with a name in a directory, which may be seen from the working
directory. -/
def setup (name : String) (path : Path) : Op Project := do
  if !Text.hasInk name then throw (.project .blankName)
  let full := path.resolve (← Op.files).workingDirectory
  let p ← nodes name full
  for r in [p.specs, p.intent, p.source] do Op.makeDirs (← Graph.pathOf r)
  return p

/-- The project with a name, if it is complete. -/
def find? (name : String) : Op (Option Project) := do
  match ← Graph.child? none .project name with
  | none => return none
  | some node =>
      let specs ← Graph.child? (some node) .specsRoot specsName
      let intent ← Graph.child? (some node) .intentRoot intentName
      let source ← Graph.child? (some node) .sourceRoot sourceName
      match specs, intent, source with
      | some specs, some intent, some source => return some { node, specs, intent, source }
      | _, _, _ => return none

/-- The project with a name, which has to be set up. -/
def require (name : String) : Op Project := do
  match ← find? name with
  | some p => return p
  | none => throw (.project (.unknown name))

/-- The nodes of all projects of the instance, in the order of their names. -/
def list : Op (List Node) := do
  let instanceId ← Op.instanceId
  let found := (← Op.tables).listNodes none (some .project) (some instanceId)
  return Sorting.sort (fun a b => Text.charsLe a.name b.name) found

end Project

end IntentBuild
