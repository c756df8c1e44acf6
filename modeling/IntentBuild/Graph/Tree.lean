import IntentBuild.Workspace

/-!
# The graph as a tree

Nodes are addressed by their parent, their type and their name, within the instance of the
graph.  `getOrCreate` gives the node at an address and makes it if need be, so a second call gives
the same node.  `setContent` is the only way to change what a node holds, and it keeps the digests
in step.  `cascadeDelete` removes a subtree so that no reference to a removed node is left at any
time.
-/

namespace IntentBuild

/-- A part of a node that is left alone or set. -/
inductive Change (α : Type) where
  /-- The part is left alone. -/
  | keep
  /-- The part is set, or cleared by none. -/
  | put (value : Option α)

/-- The value that a part is set to, if any. -/
def Change.value? {α : Type} : Change α → Option α
  | .keep => none
  | .put v => v

namespace Graph

/-! ## Reading -/

/-- The node with an identifier. -/
def find? (id : String) : Op (Option Node) := return (← Op.tables).node? id

/-- The node with an identifier, which has to exist. -/
def require (id : String) : Op Node := do
  match ← find? id with
  | some n => return n
  | none => throw (.graph (.required id))

/-- The child of a node, or the root, with a type and a name. -/
def child? (parent : Option Node) (type : NodeType) (name : String) : Op (Option Node) := do
  let instanceId ← Op.instanceId
  return (← Op.tables).findNode? ⟨parent.map Node.id, instanceId, type, name⟩

/-- The children of a node, of a type where one is given. -/
def children (parent : Node) (type : Option NodeType) : Op (List Node) :=
  return (← Op.tables).listNodes (some parent.id) type none

/-- The edges from a node. -/
def edgesFrom (n : Node) (type : Option EdgeType) : Op (List Edge) :=
  return (← Op.tables).edgesFrom n.id type

/-- The edges to a node. -/
def edgesTo (n : Node) (type : Option EdgeType) : Op (List Edge) :=
  return (← Op.tables).edgesTo n.id type

/-- What a table keeps under an identifier that an index gives.  An identifier that the table
lacks is a fault. -/
def entryOf {α : Type} (id : Option String) (table : List (String × α)) : Op (Option α) :=
  match id with
  | none => return none
  | some i =>
      match Assoc.get? i table with
      | some a => return some a
      | none => throw .noKey

/-- The edge with a key. -/
def findEdge? (k : EdgeKey) : Op (Option Edge) := do
  let t ← Op.tables
  entryOf (Assoc.get? k t.edgeIndex) t.edges

/-- The record with a key. -/
def findRecord? (k : RecordKey) : Op (Option GenerationRecord) := do
  let t ← Op.tables
  entryOf (Assoc.get? k t.recordIndex) t.records

/-- Records from the oldest to the newest.  Times of different kinds have no order. -/
def oldestFirst (rs : List GenerationRecord) : Except Failure (List GenerationRecord) :=
  match rs with
  | [] => .ok []
  | r :: rest =>
      if rest.all fun s => r.created.comparable s.created then
        .ok (Sorting.sort (fun a b => a.created.le b.created) rs)
      else .error .illTyped

/-- The records of a node, of a tool where one is given, from the oldest to the newest. -/
def records (n : Node) (tool : Option String) : Op (List GenerationRecord) := do
  Op.lift (fun e => e) (oldestFirst ((← Op.tables).recordsOf n.id tool))

/-- The path that a node keeps, if any. -/
def path? (n : Node) : Op (Option Path) :=
  match n.pathEntry with
  | .absent => return none
  | .path p => return some p
  | .illTyped => throw .illTyped

/-- The path that a node has to keep. -/
def pathOf (n : Node) : Op Path := do
  match ← path? n with
  | some p => return p
  | none => throw (.graph (.noPath n.name n.type))

/-! ## Creating and changing -/

/-- Inserts a new node. -/
def insertNode (n : Node) : Op Node := do
  Op.commit (← Op.lift .graph ((← Op.tables).insertNode n))
  return n

/-- Inserts a new edge. -/
def insertEdge (e : Edge) : Op Edge := do
  Op.commit (← Op.lift .graph ((← Op.tables).insertEdge e))
  return e

/-- Inserts a record or puts it in place of the one with its key. -/
def upsertRecord (r : GenerationRecord) : Op GenerationRecord := do
  let (t, kept) ← Op.lift .graph ((← Op.tables).upsertRecord r)
  Op.commit t
  return kept

/-- Puts a node in place of the node with its identifier, and stamps it. -/
def updateNode (n : Node) : Op Node := do
  match (← Op.tables).node? n.id with
  | none => throw (.graph (.updateMissing n.id))
  | some _ =>
      let stamped := { n with updated := ← Op.complete (Draft.orNow none) }
      let _ ← Op.remove ((← Op.tables).updateNode stamped)
      return stamped

/-- Deletes a node that nothing refers to. -/
def deleteNode (id : String) : Op Unit := do let _ ← Op.remove ((← Op.tables).deleteNode id)

/-- Deletes an edge. -/
def deleteEdge (id : String) : Op Unit := do let _ ← Op.remove ((← Op.tables).deleteEdge id)

/-- Deletes a record. -/
def deleteRecord (id : String) : Op Unit := do let _ ← Op.remove ((← Op.tables).deleteRecord id)

/-- The digest of structured content. -/
def membersHash (json : Option Members) : Except Failure (Option String) :=
  match json with
  | none => .ok none
  | some ms =>
      match (Json.obj ms).contentHash with
      | .ok h => .ok (some h)
      | .error f => .error (.payload (.canonical f))

/-- A new node has a name. -/
def checkName (name : String) : Except Failure Unit :=
  if name == "" then .error (.invalid ⟨"GraphNode", [⟨[.key "name"], .tooShort⟩]⟩) else .ok ()

/-- The child of a node, or the root, with a type and a name.  It is made, with the structured
content given, if there is none. -/
def getOrCreate (parent : Option Node) (type : NodeType) (name : String)
    (json : Option Members) : Op Node :=
  Op.transaction do
    match ← child? parent type name with
    | some n => return n
    | none =>
        let jsonHash ← Op.lift (fun e => e) (membersHash json)
        Op.lift (fun e => e) (checkName name)
        let instanceId ← Op.instanceId
        let n ← Op.complete (Node.Fields.draft
          { id := none, parent := parent.map Node.id, instanceId, status := .active, type, name,
            content := none, contentHash := none, json, jsonHash, contentUpdated := none,
            created := none, updated := none })
        insertNode n

/-- The node with its content changed, and its digest with it. -/
def putContent (n : Node) : Change String → Node
  | .keep => n
  | .put c => { n with content := c, contentHash := c.map Sha256.hex }

/-- The node with its structured content changed, where `hash` is the digest of the new one. -/
def putJson (n : Node) (hash : Option String) : Change Members → Node
  | .keep => n
  | .put j => { n with json := j, jsonHash := hash }

/-- The node with the time of its input changed. -/
def putStamp (n : Node) : Change Stamp → Node
  | .keep => n
  | .put s => { n with contentUpdated := s }

/-- Changes what a node holds. -/
def setContent (n : Node) (content : Change String) (json : Change Members)
    (stamp : Change Stamp) : Op Node := do
  let hash ← Op.lift (fun e => e) (membersHash json.value?)
  let current ← require n.id
  updateNode (putStamp (putJson (putContent current content) hash json) stamp)

/-- Sets the structured content of a node. -/
def setJson (n : Node) (ms : Members) : Op Node := setContent n .keep (.put (some ms)) .keep

/-- Stores derived data as the child of a node with a type and a name. -/
def upsertDerived (parent : Node) (type : NodeType) (name : String) (json : Option Members)
    (content : Change String) : Op Node := do
  let n ← getOrCreate (some parent) type name none
  setContent n content (.put json) .keep

/-- Links two nodes, unless they are linked already. -/
def link (source target : Node) (type : EdgeType) (name : String) : Op Edge := do
  match ← findEdge? ⟨source.id, target.id, type, name⟩ with
  | some e => return e
  | none => insertEdge (← Op.complete (Edge.draft none source.id target.id type name none))

/-- Removes the link between two nodes, and says whether there was one. -/
def unlink (source target : Node) (type : EdgeType) (name : String) : Op Bool := do
  match ← findEdge? ⟨source.id, target.id, type, name⟩ with
  | some e => deleteEdge e.id; return true
  | none => return false

/-! ## Subtrees -/

/-- More steps than any chain of parents has. -/
def depthBound : Op Nat := return (← Op.tables).nodes.length + 1

/-- A node and all nodes below it, each before its children.  The fuel bounds the depth. -/
def walkFrom : (fuel : Nat) → Node → Op (List Node)
  | 0, _ => throw .endless
  | fuel + 1, n => do
      let below ← (← children n none).mapM (walkFrom fuel)
      return n :: below.flatten

/-- A node and all nodes below it, each before its children. -/
def walk (n : Node) : Op (List Node) := do walkFrom (← depthBound) n

/-- Deletes the references from and to a node, and its records. -/
def detach (n : Node) : Op Unit := do
  for e in ← edgesFrom n none do deleteEdge e.id
  for e in ← edgesTo n none do deleteEdge e.id
  for r in ← records n none do deleteRecord r.id

/-- Deletes a node and all nodes below it, and counts them.  The fuel bounds the depth. -/
def deleteFrom : (fuel : Nat) → Node → Op Nat
  | 0, _ => throw .endless
  | fuel + 1, n => Op.transaction do
      detach n
      let counts ← (← children n none).mapM (deleteFrom fuel)
      deleteNode n.id
      return counts.foldl (· + ·) 1

/-- Deletes all nodes below a node, and the node itself where this is asked for.  Gives the count
of the deleted nodes. -/
def cascadeDelete (n : Node) (includingSelf : Bool) : Op Nat := do
  let fuel ← depthBound
  if includingSelf then deleteFrom fuel n
  else Op.transaction do
    let counts ← (← children n none).mapM (deleteFrom fuel)
    return counts.foldl (· + ·) 0

end Graph

end IntentBuild
