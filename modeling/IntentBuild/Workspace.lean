import IntentBuild.Conversation.Endpoint
import IntentBuild.Graph.Document
import IntentBuild.Notice

/-!
# Workspaces and operations

A workspace is all that an operation can read or change: the file tree, the graph with its
document, the supply of identifiers and times, the calls made so far, whether the build is
cancelled, and the notices.

An operation, an `Op`, changes the workspace and gives a value or a failure.  What it changed
before a failure stays changed.

The graph is written to its document after every change.  Within a transaction it is written
once, when the outermost transaction ends, also when it ends with a failure.  The file
`graph.json.lock` beside the document, which is locked while the document is read or written, is left
out: it holds nothing, and nothing here stands in its place.
-/

namespace IntentBuild

/-- The graph with the place of its document. -/
structure OpenGraph where
  /-- The directory of the document. -/
  root : Path
  /-- The instance that new nodes belong to. -/
  instanceId : String
  /-- The tables. -/
  tables : Tables := {}
  /-- How many transactions are open. -/
  depth : Nat := 0
  /-- The tables have changed since they were last written. -/
  unsaved : Bool := false

/-- All that an operation can read or change. -/
structure Workspace where
  /-- The files. -/
  files : FileTree
  /-- The graph. -/
  graph : OpenGraph
  /-- Fresh identifiers and times. -/
  supply : Supply
  /-- The calls made so far, the last one first. -/
  calls : List Call := []
  /-- The build is cancelled. -/
  cancelled : Bool := false
  /-- The notices, the last one first. -/
  notices : List Notice := []

/-- An operation on a workspace. -/
abbrev Op := EStateM Failure Workspace

namespace Op

variable {α ε : Type}

/-- Gives a value, or fails with a failure made of a fault. -/
def lift (f : ε → Failure) : Except ε α → Op α
  | .ok a => pure a
  | .error e => throw (f e)

/-- Adds a notice. -/
def notify (n : Notice) : Op Unit := modify fun w => { w with notices := n :: w.notices }

/-- Completes a draft. -/
def complete (d : Draft α) : Op α := modifyGet fun w =>
  let (a, s) := d.run w.supply
  (a, { w with supply := s })

/-! ## Files -/

/-- The file tree. -/
def files : Op FileTree := return (← get).files

/-- Puts another file tree in place. -/
def setFiles (t : FileTree) : Op Unit := modify fun w => { w with files := t }

/-- A file stands at the path. -/
def isFile (p : Path) : Op Bool := return (← files).isFile p

/-- The text of the bytes of a file, with all line breaks written as `\n`. -/
def decode (bytes : ByteArray) : Except TextFault String :=
  match String.fromUTF8? bytes with
  | some s => .ok (Text.unifyLineBreaks s)
  | none => .error .notUtf8

/-- The text of a file. -/
def readText (p : Path) : Op String := do
  let bytes ← lift .file ((← files).readBytes p)
  lift .text (decode bytes)

/-- The object that a text spells, where the text comes from a file. -/
def objectOf (p : Path) (text : String) : Except TextFault Members :=
  match Json.parse? text with
  | none => .error .notJson
  | some (.obj ms) => .ok ms
  | some _ => .error (.notObject p)

/-- The object in a file. -/
def readObject (p : Path) : Op Members := do lift .text (objectOf p (← readText p))

/-- The time of the last change of a file. -/
def changedAt (p : Path) : Op Stamp := do
  return .universal (← lift .file ((← files).changedAt p))

/-- Makes a directory with all directories above it. -/
def makeDirs (p : Path) : Op Unit := do setFiles (← lift .file ((← files).makeDirs p))

/-- Writes a text file with the directories above it, unless the file has exactly this text
already.  A file that is left alone keeps its time of change.  Says whether the file was
written. -/
def writeIfChanged (p : Path) (text : String) : Op Bool := do
  let isSame ← if ← isFile p then pure ((← readText p) == text) else pure false
  if isSame then return false
  else
    makeDirs p.parent
    setFiles (← lift .file ((← files).write p (FileTree.textContent text)))
    return true

/-- Writes an object with a line for each item and sorted keys, unless the file has exactly this
text already. -/
def writeObject (p : Path) (ms : Members) : Op Bool :=
  writeIfChanged p (((Json.obj ms).sortKeys Text.charsLe).render .pretty ++ "\n")

/-! ## The graph -/

/-- The tables of the graph. -/
def tables : Op Tables := return (← get).graph.tables

/-- The instance that new nodes belong to. -/
def instanceId : Op String := return (← get).graph.instanceId

/-- The path of the document of the graph. -/
def documentPath (g : OpenGraph) : Path := g.root.child "graph.json"

/-- Writes the document of the graph. -/
def save : Op Unit := do
  let w ← get
  makeDirs w.graph.root
  let content : Thunk ByteArray := Thunk.mk fun _ => w.graph.tables.document.toUTF8
  let t ← files
  setFiles (← lift .file (t.place (documentPath w.graph) content t.nextTick))
  modify fun w => { w with graph := { w.graph with unsaved := false } }

/-- Puts changed tables in place.  They are written at once unless a transaction is open. -/
def commit (t : Tables) : Op Unit := do
  modify fun w => { w with graph := { w.graph with tables := t, unsaved := true } }
  if (← get).graph.depth == 0 then save

/-- Begins a transaction. -/
def beginTransaction : Op Unit :=
  modify fun w => { w with graph := { w.graph with depth := w.graph.depth + 1 } }

/-- Ends a transaction.  The outermost one writes what has changed. -/
def endTransaction : Op Unit := do
  modify fun w => { w with graph := { w.graph with depth := w.graph.depth - 1 } }
  let g := (← get).graph
  if g.depth == 0 && g.unsaved then save

/-- Runs an operation in a transaction, which ends also when the operation fails. -/
def transaction (body : Op α) : Op α := do
  beginTransaction
  tryFinally body endTransaction

/-- Puts the tables that a removal gives in place, and says whether there was something to
remove. -/
def remove (r : Tables.Removal) : Op Bool :=
  match r with
  | .absent => return false
  | .done t => do commit t; return true
  | .noKey t => do
      modify fun w => { w with graph := { w.graph with tables := t } }
      throw .noKey
  | .refused f => throw (.graph f)

/-- The text of the document of the graph in a directory, if there is one. -/
def readDocument (path : Path) : Op (Option String) := do
  if ← isFile path then
    let bytes ← lift .file ((← files).readBytes path)
    match decode bytes with
    | .ok text => if Text.hasInk text then return some text else throw (.document (.blank path))
    | .error _ => throw (.document (.notUtf8 path))
  else return none

/-- Opens the graph in a directory, which is made if need be. -/
def openGraph (root : Path) (instanceId : String) : Op Unit := do
  makeDirs root
  let g : OpenGraph := { root, instanceId }
  let path := documentPath g
  match ← readDocument path with
  | none => modify fun w => { w with graph := g }
  | some text =>
      let draft ← lift (fun v => .document (.invalid path v)) (Tables.readDocument text)
      let t ← complete draft
      modify fun w => { w with graph := { g with tables := t } }

end Op

end IntentBuild
