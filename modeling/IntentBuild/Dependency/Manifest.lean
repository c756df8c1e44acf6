import IntentBuild.Dependency.Delta
import IntentBuild.Graph.Tree

/-!
# The manifest of dependencies

Every file of a project declares dependencies, a map from names to least versions that its node
keeps.  The manifest of the project is a node that keeps one map for all files.  An edge from a
file to the manifest, named after a dependency, says that the file still declares it.

Deltas change what a file declares, and the manifest with it.  For each name, the manifest has
the highest version that a file declares, and the name goes when no file declares it any more.
`reconcile` builds the map of the manifest anew from the edges.
-/

namespace IntentBuild

/-- Names of dependencies with least versions. -/
abbrev Dependencies := List (String × String)

namespace DependencyDelta

/-- The delta with the given parts, which have to keep the rules of deltas. -/
def make (operation : DeltaOperation) (name : String) (minVersion : Option String) :
    Except Invalid DependencyDelta :=
  Reading.validated "DependencyDelta"
    (((Json.Read.nonempty (.str name)).under (.key "name")).andThen fun name =>
      check ⟨operation, name, minVersion⟩)

end DependencyDelta

namespace Manifest

/-- The map of texts at a key of a node, empty if the key is absent. -/
def textsAt (key : String) (n : Node) : Except Failure Dependencies :=
  match Assoc.get? key n.members with
  | none => .ok []
  | some (.obj ms) =>
      match Json.texts? ms with
      | some ts => .ok ts
      | none => .error .illTyped
  | some _ => .error .illTyped

/-- The map of texts at a key of a node, if there is one. -/
def texts? (key : String) (n : Node) : Option Dependencies :=
  match Assoc.get? key n.members with
  | some (.obj ms) => Json.texts? ms
  | _ => none

/-- The map at a key of a node is this one, in any order. -/
def holds (key : String) (n : Node) (deps : Dependencies) : Bool :=
  match texts? key n with
  | some m => Assoc.same m deps
  | none => false

/-- The members of a node with a map of texts at a key. -/
def withTexts (key : String) (n : Node) (deps : Dependencies) : Members :=
  Assoc.set key (.ofTexts deps) n.members

/-- The version that a node declares for a name. -/
def declaredVersion? (n : Node) (name : String) : Except Failure (Option String) :=
  match Assoc.get? "deps" n.members with
  | none => .ok none
  | some (.obj ms) =>
      match Assoc.get? name ms with
      | none | some .null => .ok none
      | some (.str v) => .ok (some v)
      | some _ => .error .illTyped
  | some _ => .error .illTyped

/-- The manifest of a project, made if need be. -/
def node (project : Node) : Op Node :=
  Graph.getOrCreate (some project) .deps "Dependencies" (some [("deps", .obj [])])

/-- The map of the manifest of a project. -/
def deps (project : Node) : Op Dependencies := do
  Op.lift (fun e => e) (textsAt "deps" (← node project))

/-- The edges from the files to the manifest. -/
def edges (manifest : Node) : Op (List Edge) := Graph.edgesTo manifest (some .dependsOn)

/-- The version that the file of an edge declares for the name of the edge. -/
def versionOf (e : Edge) : Op (Option String) := do
  match ← Graph.find? e.source with
  | some n => Op.lift (fun f => f) (declaredVersion? n e.name)
  | none => return none

/-- The map with a version for a name, if it is higher than the one so far. -/
def raise (union : Dependencies) (name : String) (version : Option String) : Dependencies :=
  match version with
  | some v => if Version.isHigher v (Assoc.get? name union) then Assoc.set name v union else union
  | none => union

/-- The highest version that a file declares for a name. -/
def highest (manifest : Node) (name : String) : Op (Option String) := do
  let named := (← edges manifest).filter fun e => e.name == name
  let union ← named.foldlM (fun u e => return raise u e.name (← versionOf e)) []
  return Assoc.get? name union

/-- The map of the highest versions that files with edges to the manifest declare. -/
def unionOf (manifest : Node) : Op Dependencies := do
  let union ← (← edges manifest).foldlM (fun u e => return raise u e.name (← versionOf e)) []
  return Text.sortByKey union

/-- The map of the highest versions that files declare. -/
def declared (project : Node) : Op Dependencies := do unionOf (← node project)

/-- What a file declares after a delta. -/
def applyDelta (m : Dependencies) (d : DependencyDelta) : Dependencies :=
  match d.operation with
  | .add => Assoc.set d.name (d.minVersion.getD "") m
  | .remove => Assoc.erase d.name m

/-- Links or unlinks a file and the manifest after a delta. -/
def linkDelta (file manifest : Node) (d : DependencyDelta) : Op Unit := do
  match d.operation with
  | .add => let _ ← Graph.link file manifest .dependsOn d.name
  | .remove => let _ ← Graph.unlink file manifest .dependsOn d.name

/-- The map of the manifest with the highest declared version for a name, or without the
name. -/
def refreshName (manifest : Node) (m : Dependencies) (name : String) : Op Dependencies := do
  match ← highest manifest name with
  | some v => return Assoc.set name v m
  | none => return Assoc.erase name m

/-- Applies deltas that a file declares, and gives the manifest. -/
def applyDeltas (project file : Node) (deltas : List DependencyDelta) : Op Node :=
  Op.transaction do
    let manifest ← node project
    let current ← Graph.require file.id
    let before ← Op.lift (fun e => e) (textsAt "deps" current)
    for d in deltas do linkDelta current manifest d
    let after := Text.sortByKey (deltas.foldl applyDelta before)
    let _ ← Graph.setJson current (withTexts "deps" current after)
    let known ← Op.lift (fun e => e) (textsAt "deps" manifest)
    let names := (deltas.map DependencyDelta.name).eraseDups
    let union ← names.foldlM (refreshName manifest) known
    Graph.setJson manifest (withTexts "deps" manifest (Text.sortByKey union))

/-- The deltas from what a file declared to what it declares. -/
def deltasTo (before declared : Dependencies) : Except Invalid (List DependencyDelta) := do
  let gone := (Text.sortTexts (before.map Prod.fst)).filter fun n => !Assoc.has n declared
  let removals ← gone.mapM fun n => DependencyDelta.make .remove n none
  let additions ← (Text.sortByKey declared).mapM fun d => DependencyDelta.make .add d.1 (some d.2)
  return removals ++ additions

/-- Makes a file declare exactly a map, and gives the manifest. -/
def replaceDeclared (project file : Node) (declared : Dependencies) : Op Node := do
  let current ← Graph.require file.id
  let before ← Op.lift (fun e => e) (textsAt "deps" current)
  applyDeltas project file (← Op.lift .invalid (deltasTo before declared))

/-- The value at a key of a node can list names. -/
def listsNames (key : String) (n : Node) : Bool :=
  match Assoc.get? key n.members with
  | some .null | some (.bool _) | some (.int _) | some (.float _) => false
  | _ => true

/-- Builds the map of the manifest anew from what the files declare, and gives it. -/
def reconcile (project : Node) : Op Dependencies := do
  let manifest ← node project
  let union ← declared project
  if !holds "deps" manifest union then
    if !listsNames "deps" manifest then throw .illTyped
    let _ ← Graph.setJson manifest (withTexts "deps" manifest union)
  return union

end Manifest

end IntentBuild
