import IntentBuild.Graph.Node

/-!
# The tables of the graph

The graph is kept in three tables, of nodes, edges and generation records, each by identifier and
in the order of insertion.  Beside each table stands an index from keys to identifiers.

The rules are those of a relational store.  A node has an existing parent or none.  An edge has
both its ends, and a record has its node.  Keys are unique.  A node goes only when no child, edge
or record refers to it.

Where a table was read from a document that breaks these rules, an index may lack a key, or give
an identifier that is gone.  To need such a key or such an identifier is a fault of its own.
-/

namespace IntentBuild

/-- Why the graph refuses an operation. -/
inductive GraphFault where
  /-- A node with the identifier exists. -/
  | nodeExists (id : String)
  /-- Another node has the key. -/
  | duplicateNode (key : NodeKey)
  /-- The parent of a node does not exist. -/
  | noParent (parent name : String)
  /-- A node to be replaced does not exist. -/
  | updateMissing (id : String)
  /-- A node still has children. -/
  | hasChildren (name id : String)
  /-- A node still has edges. -/
  | hasEdges (name id : String)
  /-- A node still has generation records. -/
  | hasRecords (name id : String)
  /-- An end of an edge does not exist. -/
  | noEnd (key : EdgeKey)
  /-- Another edge has the key. -/
  | duplicateEdge (key : EdgeKey)
  /-- The node of a record does not exist. -/
  | noRecordNode (id : String)
  /-- A node that is needed does not exist. -/
  | required (id : String)
  /-- A node that should have a path has none. -/
  | noPath (name : String) (type : NodeType)
  /-- A project should have a path and has none. -/
  | noProjectPath (name : String)
  /-- An intent file to be set has no content. -/
  | noContent (path : String)
deriving DecidableEq, Repr

/-- The wording of a fault. -/
def GraphFault.message : GraphFault → String
  | .nodeExists id => "Node id already exists: " ++ id
  | .duplicateNode k => "Duplicate node key: " ++ k.render
  | .noParent parent name =>
      "Parent node " ++ parent ++ " of " ++ Text.quoted name ++ " does not exist"
  | .updateMissing id => "Cannot update missing node " ++ id
  | .hasChildren name id => "Node " ++ Text.quoted name ++ " (" ++ id ++ ") still has children"
  | .hasEdges name id => "Node " ++ Text.quoted name ++ " (" ++ id ++ ") still has edges"
  | .hasRecords name id =>
      "Node " ++ Text.quoted name ++ " (" ++ id ++ ") still has generation records"
  | .noEnd k => "Edge " ++ k.render ++ " references a missing node"
  | .duplicateEdge k => "Duplicate edge key: " ++ k.render
  | .noRecordNode id => "Generation record references missing node " ++ id
  | .required id => "Required node " ++ id ++ " is missing"
  | .noPath name type => "Node " ++ Text.quoted name ++ " (" ++ type.text ++ ") has no path"
  | .noProjectPath name => "Project node " ++ Text.quoted name ++ " has no path"
  | .noContent path => "Intent file " ++ Text.quoted path ++ " has no content to write"

/-- The tables of the graph with their indexes. -/
structure Tables where
  /-- The nodes by identifier. -/
  nodes : List (String × Node) := []
  /-- The identifiers of nodes by key. -/
  nodeIndex : List (NodeKey × String) := []
  /-- The edges by identifier. -/
  edges : List (String × Edge) := []
  /-- The identifiers of edges by key. -/
  edgeIndex : List (EdgeKey × String) := []
  /-- The records by identifier. -/
  records : List (String × GenerationRecord) := []
  /-- The identifiers of records by key. -/
  recordIndex : List (RecordKey × String) := []
deriving Repr, Inhabited

namespace Tables

/-! ## Looking up -/

/-- The node with an identifier. -/
def node? (t : Tables) (id : String) : Option Node := Assoc.get? id t.nodes

/-- The node with a key. -/
def findNode? (t : Tables) (k : NodeKey) : Option Node :=
  (Assoc.get? k t.nodeIndex).bind t.node?

/-- All nodes in the order of insertion. -/
def allNodes (t : Tables) : List Node := t.nodes.map Prod.snd

/-- The nodes with a parent, or the roots, in the order of insertion. -/
def nodesUnder (t : Tables) (parent : Option String) : List Node :=
  t.allNodes.filter fun n => n.parent == parent

/-- The nodes with a parent, or the roots, of a type and an instance where these are given. -/
def listNodes (t : Tables) (parent : Option String) (type : Option NodeType)
    (instanceId : Option String) : List Node :=
  (t.nodesUnder parent).filter fun n =>
    (type.isNone || type == some n.type) &&
      (instanceId.isNone || instanceId == some n.instanceId)

/-- All edges in the order of insertion. -/
def allEdges (t : Tables) : List Edge := t.edges.map Prod.snd

/-- The edges from a node, of a type where one is given. -/
def edgesFrom (t : Tables) (id : String) (type : Option EdgeType) : List Edge :=
  t.allEdges.filter fun e => e.source == id && (type.isNone || type == some e.type)

/-- The edges to a node, of a type where one is given. -/
def edgesTo (t : Tables) (id : String) (type : Option EdgeType) : List Edge :=
  t.allEdges.filter fun e => e.target == id && (type.isNone || type == some e.type)

/-- All records in the order of insertion. -/
def allRecords (t : Tables) : List GenerationRecord := t.records.map Prod.snd

/-- The records of a node, of a tool where one is given, in the order of insertion. -/
def recordsOf (t : Tables) (node : String) (tool : Option String) : List GenerationRecord :=
  t.allRecords.filter fun r => r.nodeId == node && (tool.isNone || tool == some r.toolId)

/-! ## Changing -/

/-- The tables with a node set, and its key with it. -/
def setNode (t : Tables) (n : Node) : Tables :=
  { t with nodes := Assoc.set n.id n t.nodes, nodeIndex := Assoc.set n.key n.id t.nodeIndex }

/-- The tables with an edge set, and its key with it. -/
def setEdge (t : Tables) (e : Edge) : Tables :=
  { t with edges := Assoc.set e.id e t.edges, edgeIndex := Assoc.set e.key e.id t.edgeIndex }

/-- The tables with a record set, and its key with it. -/
def setRecord (t : Tables) (r : GenerationRecord) : Tables :=
  { t with
    records := Assoc.set r.id r t.records
    recordIndex := Assoc.set r.key r.id t.recordIndex }

/-- Inserts a new node. -/
def insertNode (t : Tables) (n : Node) : Except GraphFault Tables :=
  if Assoc.has n.id t.nodes then .error (.nodeExists n.id)
  else if Assoc.has n.key t.nodeIndex then .error (.duplicateNode n.key)
  else
    match n.parent with
    | some p =>
        if Assoc.has p t.nodes then .ok (t.setNode n) else .error (.noParent p n.name)
    | none => .ok (t.setNode n)

/-- Inserts a new edge. -/
def insertEdge (t : Tables) (e : Edge) : Except GraphFault Tables :=
  if !Assoc.has e.source t.nodes || !Assoc.has e.target t.nodes then .error (.noEnd e.key)
  else if Assoc.has e.key t.edgeIndex then .error (.duplicateEdge e.key)
  else .ok (t.setEdge e)

/-- Inserts a record, or puts it in place of the record with its key.  The identifier of that
record stays.  The record as it is kept comes with the tables. -/
def upsertRecord (t : Tables) (r : GenerationRecord) :
    Except GraphFault (Tables × GenerationRecord) :=
  if !Assoc.has r.nodeId t.nodes then .error (.noRecordNode r.nodeId)
  else
    let kept :=
      match Assoc.get? r.key t.recordIndex with
      | some id => { r with id := id }
      | none => r
    .ok (t.setRecord kept, kept)

/-- What comes of an operation that needs a key of an index. -/
inductive Removal where
  /-- There is nothing to remove. -/
  | absent
  /-- The tables after the operation. -/
  | done (tables : Tables)
  /-- The index lacks the key.  The tables are those that the operation leaves behind. -/
  | noKey (tables : Tables)
  /-- The graph refuses the operation. -/
  | refused (fault : GraphFault)

/-- Puts a node in place of the node with its identifier. -/
def updateNode (t : Tables) (n : Node) : Removal :=
  match t.node? n.id with
  | none => .refused (.updateMissing n.id)
  | some old =>
      let stored := Assoc.set n.id n t.nodes
      if n.key = old.key then .done { t with nodes := stored }
      else
        match Assoc.get? n.key t.nodeIndex with
        | some owner =>
            if owner ≠ n.id then .refused (.duplicateNode n.key)
            else if Assoc.has old.key t.nodeIndex then
              .done { t with
                nodes := stored
                nodeIndex := Assoc.set n.key n.id (Assoc.erase old.key t.nodeIndex) }
            else .noKey t
        | none =>
            if Assoc.has old.key t.nodeIndex then
              .done { t with
                nodes := stored
                nodeIndex := Assoc.set n.key n.id (Assoc.erase old.key t.nodeIndex) }
            else .noKey t

/-- Deletes a node that nothing refers to. -/
def deleteNode (t : Tables) (id : String) : Removal :=
  match t.node? id with
  | none => .absent
  | some n =>
      if t.allNodes.any fun c => c.parent == some id then .refused (.hasChildren n.name id)
      else if t.allEdges.any fun e => e.source == id || e.target == id then
        .refused (.hasEdges n.name id)
      else if t.allRecords.any fun r => r.nodeId == id then .refused (.hasRecords n.name id)
      else if Assoc.has n.key t.nodeIndex then
        .done { t with
          nodes := Assoc.erase id t.nodes
          nodeIndex := Assoc.erase n.key t.nodeIndex }
      else .noKey t

/-- Deletes an edge. -/
def deleteEdge (t : Tables) (id : String) : Removal :=
  match Assoc.get? id t.edges with
  | none => .absent
  | some e =>
      let rest := { t with edges := Assoc.erase id t.edges }
      if Assoc.has e.key t.edgeIndex then
        .done { rest with edgeIndex := Assoc.erase e.key t.edgeIndex }
      else .noKey rest

/-- Deletes a record. -/
def deleteRecord (t : Tables) (id : String) : Removal :=
  match Assoc.get? id t.records with
  | none => .absent
  | some r =>
      let rest := { t with records := Assoc.erase id t.records }
      if Assoc.has r.key t.recordIndex then
        .done { rest with recordIndex := Assoc.erase r.key t.recordIndex }
      else .noKey rest

/-! ## Labels and orphans -/

/-- The nodes whose parent does not exist. -/
def orphanNodes (t : Tables) : List Node :=
  t.allNodes.filter fun n =>
    match n.parent with
    | some p => !Assoc.has p t.nodes
    | none => false

/-- The edges with an end that does not exist. -/
def orphanEdges (t : Tables) : List Edge :=
  t.allEdges.filter fun e => !Assoc.has e.source t.nodes || !Assoc.has e.target t.nodes

end Tables

end IntentBuild
