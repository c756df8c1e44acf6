import IntentBuild.Graph.Tree

/-!
# Files in the graph

A root node stands for a directory.  A file below that directory has a chain of nodes below the
root, one for each directory on the way and one for the file.
-/

namespace IntentBuild.Graph

/-- The types of the nodes below a root. -/
structure FileKind where
  /-- The type of a directory. -/
  dir : NodeType
  /-- The type of a file. -/
  file : NodeType

/-- The nodes of specifications. -/
def specKind : FileKind := ⟨.specDir, .specFile⟩

/-- The nodes of intent files. -/
def intentKind : FileKind := ⟨.intentDir, .intentFile⟩

/-- The nodes of source files. -/
def sourceKind : FileKind := ⟨.sourceDir, .sourceFile⟩

/-- The text of a path without separators at its end. -/
def rootText (p : Path) : String :=
  String.ofList ((p.text.toList.reverse.dropWhile (· == '/')).reverse)

/-- A part of a path that names nothing of its own. -/
def isHollow (part : String) : Bool := part == "" || part == "." || part == ".."

/-- The parts of a path below a root, both given as texts. -/
def partsBelow (root full : String) : Except PathFault (List String) :=
  let start := root ++ "/"
  if Text.beginsWith full start then
    let parts := Text.splitAt '/' (Text.dropChars start.toList.length full)
    if parts.any isHollow then .error (.parts full) else .ok parts
  else .error (.outside full root)

/-- The path that a root has to keep. -/
def rootPath (root : Node) : Op Path := do
  match ← path? root with
  | some p => return p
  | none => throw (.path (.noRootPath root.name))

/-- The parts of a path below the directory of a root. -/
def relativeParts (root : Node) (full : String) : Op (List String) := do
  Op.lift .path (partsBelow (rootText (← rootPath root)) full)

/-- The path below the directory of a root, as a text. -/
def relativePath (root : Node) (full : String) : Op String :=
  return Text.joinWith "/" (← relativeParts root full)

/-- The node of a row of parts below a node, made with the nodes on the way if need be. -/
def makePlace (kind : FileKind) : Node → List String → Op Node
  | parent, [] => return parent
  | parent, [name] => getOrCreate (some parent) kind.file name none
  | parent, name :: rest => do
      makePlace kind (← getOrCreate (some parent) kind.dir name none) rest

/-- The node of a file below the directory of a root, made if need be. -/
def placeOf (root : Node) (full : String) (kind : FileKind) : Op Node := do
  makePlace kind root (← relativeParts root full)

/-- The node of a row of parts below a node, if it is there. -/
def findPlace (kind : FileKind) : Node → List String → Op (Option Node)
  | parent, [] => return some parent
  | parent, [name] => child? (some parent) kind.file name
  | parent, name :: rest => do
      match ← child? (some parent) kind.dir name with
      | some d => findPlace kind d rest
      | none => return none

/-- The node of a file below the directory of a root, if it is there. -/
def findPlaceOf (root : Node) (full : String) (kind : FileKind) : Op (Option Node) := do
  findPlace kind root (← relativeParts root full)

/-- The file nodes below a node that stands for a directory, with their paths.  The fuel bounds
the depth. -/
def filesFrom (kind : FileKind) : (fuel : Nat) → Node → Path → Op (List (Path × Node))
  | 0, _, _ => throw .endless
  | fuel + 1, parent, dir => do
      let found ← (← children parent none).mapM fun c =>
        if c.type == kind.dir then filesFrom kind fuel c (dir.child c.name)
        else if c.type == kind.file then return [(dir.child c.name, c)]
        else return []
      return found.flatten

/-- The file nodes below a root with their paths, in ascending order of the paths. -/
def fileNodes (root : Node) (kind : FileKind) : Op (List (Path × Node)) := do
  let found ← filesFrom kind (← depthBound) root (← rootPath root)
  return Sorting.sort (fun a b => Text.charsLe a.1.text b.1.text) found

end IntentBuild.Graph
