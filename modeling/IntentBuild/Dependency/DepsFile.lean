import IntentBuild.Dependency.Manifest
import IntentBuild.Dependency.Package

/-!
# The file of the dependencies

The manifest of a project is written to the file `.intentcode/deps.json`.  The graph counts, and
the file follows.  The manifest keeps the map that was last written, the synced map, and `verify`
compares the file with it.  A missing file means that nothing was written yet.
-/

namespace IntentBuild.DepsFile

/-- What a synchronisation gives. -/
structure Sync where
  /-- The dependencies differ from the ones last written. -/
  changed : Bool
  /-- The file. -/
  path : Path
  /-- The dependencies. -/
  deps : Dependencies
deriving DecidableEq, Repr

/-- The directory of a project for what is generated beside the sources. -/
def directory (project : Node) : Op Path := do
  match ← Graph.path? project with
  | some p => return p.child ".intentcode"
  | none => throw (.graph (.noProjectPath project.name))

/-- The file of the dependencies of a project. -/
def path (project : Node) : Op Path := return (← directory project).child "deps.json"

/-- The object that the file of the dependencies holds. -/
def content (deps : Dependencies) : Members := [("deps", .ofTexts (Text.sortByKey deps))]

/-- The text of the file of the dependencies. -/
def render (deps : Dependencies) : String := (Json.obj (content deps)).render .pretty ++ "\n"

/-- The synced map of a project. -/
def synced (project : Node) : Op Dependencies := do
  Op.lift (fun e => e) (Manifest.textsAt "synced" (← Manifest.node project))

/-- The synced map of a manifest is this one, in any order.  An absent map is empty. -/
def isSynced (manifest : Node) (deps : Dependencies) : Bool :=
  if Assoc.has "synced" manifest.members then Manifest.holds "synced" manifest deps
  else deps.isEmpty

/-- Writes the file of the dependencies, and raises the package file of the project. -/
def write (path : Path) (deps : Dependencies) : Op Unit := do
  let _ ← Op.writeIfChanged path (render deps)
  let _ ← Package.update (path.parent.parent.child "package.json") deps

/-- Reconciles the manifest and writes it to its file if it changed or the file is missing. -/
def sync (project : Node) : Op Sync := do
  let deps ← Manifest.reconcile project
  let manifest ← Manifest.node project
  let path ← path project
  let changed := !isSynced manifest deps
  if changed || !(← Op.isFile path) then write path deps
  if changed then
    let _ ← Graph.setJson manifest (Manifest.withTexts "synced" manifest deps)
  return { changed, path, deps }

/-- The members of a file hold exactly a map of dependencies. -/
def matchesFile (found : Members) (deps : Dependencies) : Bool :=
  match found with
  | [("deps", .obj ms)] =>
      match Json.texts? ms with
      | some ts => Assoc.same ts deps
      | none => false
  | _ => false

/-- The object in the file of the dependencies. -/
def readFile (path : Path) : Op Members := do
  let bytes ← Op.lift .file ((← Op.files).readBytes path)
  let text ← Op.lift (fun f => .drift (.unreadable path f)) (Op.decode bytes)
  Op.lift (fun f => .drift (.unreadable path f)) (Op.objectOf path text)

/-- Compares the file of the dependencies with the synced map. -/
def verify (project : Node) : Op Unit := do
  let path ← path project
  if ← Op.isFile path then
    let found ← readFile path
    let deps ← synced project
    if !matchesFile found deps then
      Op.notify (.drift path (Text.sortByKey deps) found)
      throw (.drift (.differs path))

end IntentBuild.DepsFile
