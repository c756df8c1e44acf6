import IntentBuild.Graph.Supply
import IntentBuild.Graph.Tables
import IntentBuild.Json.Parser
import IntentBuild.Json.Printer
import IntentBuild.Schema.Reading

/-!
# The document of the graph

The whole graph is kept in one JSON document with a list for each table.  `Tables.document` is
its text.  `Tables.readDocument` reads it back and builds the indexes.  What a document leaves
out, an identifier or a time, is drawn from a supply.
-/

namespace IntentBuild

namespace Json

/-- A stamp as a text, or `null`. -/
def ofStamp? : Option Stamp → Json
  | some s => .str s.document
  | none => .null

/-- An object without numbers that are not finite, or `null`. -/
def ofMembers? : Option Members → Json
  | some ms => (Json.obj ms).finite
  | none => .null

end Json

namespace Node

/-- The members of a node in the document. -/
def toJson (n : Node) : Json :=
  .obj [("id", .str n.id), ("parent_id", .ofText? n.parent), ("instance_id", .str n.instanceId),
    ("status", .str n.status.text), ("type", .str n.type.text), ("name", .str n.name),
    ("content", .ofText? n.content), ("content_hash", .ofText? n.contentHash),
    ("json_content", .ofMembers? n.json), ("json_content_hash", .ofText? n.jsonHash),
    ("content_updated", .ofStamp? n.contentUpdated), ("created", .ofStamp? n.created),
    ("updated", .ofStamp? n.updated)]

/-- The fields of a node as a document gives them. -/
structure Fields where
  /-- The identifier, if given. -/
  id : Option String
  /-- The parent. -/
  parent : Option String
  /-- The instance. -/
  instanceId : String
  /-- The status. -/
  status : NodeStatus
  /-- The type. -/
  type : NodeType
  /-- The name. -/
  name : String
  /-- The content. -/
  content : Option String
  /-- The digest of the content. -/
  contentHash : Option String
  /-- The structured content. -/
  json : Option Members
  /-- The digest of the structured content. -/
  jsonHash : Option String
  /-- The time of the input. -/
  contentUpdated : Option Stamp
  /-- The time of the creation, if given. -/
  created : Option Stamp
  /-- The time of the last change, if given. -/
  updated : Option Stamp

/-- The node with the given fields. -/
def Fields.draft (f : Fields) : Draft Node := do
  let id ← Draft.orFreshId f.id
  let created ← Draft.orNow f.created
  let updated ← Draft.orNow f.updated
  return { f with id, created, updated }

/-- Reads the fields of a node from its members. -/
def readFields (ms : Members) : Reading Fields :=
  Fields.mk <$> Json.Read.withDefault ms "id" none (fun v => some <$> Json.Read.text v)
    <*> Json.Read.optionalField ms "parent_id" Json.Read.text
    <*> Json.Read.required ms "instance_id" Json.Read.text
    <*> Json.Read.withDefault ms "status" .active (Json.Read.word NodeStatus.ofText?)
    <*> Json.Read.required ms "type" (Json.Read.word NodeType.ofText?)
    <*> Json.Read.required ms "name" Json.Read.nonempty
    <*> Json.Read.optionalField ms "content" Json.Read.text
    <*> Json.Read.optionalField ms "content_hash" Json.Read.text
    <*> Json.Read.optionalField ms "json_content" Json.Read.anyMap
    <*> Json.Read.optionalField ms "json_content_hash" Json.Read.text
    <*> Json.Read.optionalField ms "content_updated" Json.Read.stamp
    <*> Json.Read.withDefault ms "created" none (fun v => some <$> Json.Read.stamp v)
    <*> Json.Read.withDefault ms "updated" none (fun v => some <$> Json.Read.stamp v)

/-- Reads a node. -/
def read (v : Json) : Reading (Draft Node) := (Json.Read.record readFields v).map Fields.draft

end Node

namespace Edge

/-- The members of an edge in the document. -/
def toJson (e : Edge) : Json :=
  .obj [("id", .str e.id), ("from_id", .str e.source), ("to_id", .str e.target),
    ("type", .str e.type.text), ("name", .str e.name), ("created", .str e.created.document)]

/-- The edge with the given fields. -/
def draft (id : Option String) (source target : String) (type : EdgeType) (name : String)
    (created : Option Stamp) : Draft Edge := do
  let id ← Draft.orFreshId id
  let created ← Draft.orNow created
  return { id, source, target, type, name, created }

/-- Reads an edge. -/
def read : Json → Reading (Draft Edge) :=
  Json.Read.record fun ms =>
    draft <$> Json.Read.withDefault ms "id" none (fun v => some <$> Json.Read.text v)
      <*> Json.Read.required ms "from_id" Json.Read.text
      <*> Json.Read.required ms "to_id" Json.Read.text
      <*> Json.Read.required ms "type" (Json.Read.word EdgeType.ofText?)
      <*> Json.Read.withDefault ms "name" "" Json.Read.text
      <*> Json.Read.withDefault ms "created" none (fun v => some <$> Json.Read.stamp v)

end Edge

namespace GenerationRecord

/-- The members of a record in the document. -/
def toJson (r : GenerationRecord) : Json :=
  .obj [("id", .str r.id), ("node_id", .str r.nodeId), ("tool_id", .str r.toolId),
    ("prompt_hash", .str r.promptHash), ("prompt", .str r.prompt), ("content", .str r.content),
    ("json_content", .ofMembers? r.json), ("created", .str r.created.document)]

/-- The record with the given fields. -/
def draft (id : Option String) (nodeId toolId promptHash prompt content : String)
    (json : Option Members) (created : Option Stamp) : Draft GenerationRecord := do
  let id ← Draft.orFreshId id
  let created ← Draft.orNow created
  return { id, nodeId, toolId, promptHash, prompt, content, json, created }

/-- Reads a record. -/
def read : Json → Reading (Draft GenerationRecord) :=
  Json.Read.record fun ms =>
    draft <$> Json.Read.withDefault ms "id" none (fun v => some <$> Json.Read.text v)
      <*> Json.Read.required ms "node_id" Json.Read.text
      <*> Json.Read.required ms "tool_id" Json.Read.text
      <*> Json.Read.required ms "prompt_hash" Json.Read.text
      <*> Json.Read.required ms "prompt" Json.Read.text
      <*> Json.Read.required ms "content" Json.Read.text
      <*> Json.Read.optionalField ms "json_content" Json.Read.anyMap
      <*> Json.Read.withDefault ms "created" none (fun v => some <$> Json.Read.stamp v)

end GenerationRecord

namespace Tables

/-- The tables as a JSON value. -/
def toJson (t : Tables) : Json :=
  .obj [("version", .int 1), ("nodes", .arr (t.allNodes.map Node.toJson)),
    ("edges", .arr (t.allEdges.map Edge.toJson)),
    ("generations", .arr (t.allRecords.map GenerationRecord.toJson))]

/-- The document of the tables. -/
def document (t : Tables) : String := t.toJson.render .document ++ "\n"

/-- The tables that hold some nodes, edges and records.  Where identifiers or keys repeat, the
last one counts. -/
def ofLists (ns : List Node) (es : List Edge) (rs : List GenerationRecord) : Tables :=
  rs.foldl setRecord (es.foldl setEdge (ns.foldl setNode {}))

/-- The tables from drafts of their contents. -/
def draft (_version : Int) (ns : List (Draft Node)) (es : List (Draft Edge))
    (rs : List (Draft GenerationRecord)) : Draft Tables := do
  let ns ← ns.mapM id
  let es ← es.mapM id
  let rs ← rs.mapM id
  return ofLists ns es rs

/-- Reads the tables from a JSON value. -/
def read : Json → Reading (Draft Tables) :=
  Json.Read.record fun ms =>
    draft <$> Json.Read.withDefault ms "version" 1 Json.Read.integer
      <*> Json.Read.withDefault ms "nodes" [] (Json.Read.list Node.read)
      <*> Json.Read.withDefault ms "edges" [] (Json.Read.list Edge.read)
      <*> Json.Read.withDefault ms "generations" [] (Json.Read.list GenerationRecord.read)

/-- Reads the tables from the text of a document. -/
def readDocument (text : String) : Except Invalid (Draft Tables) :=
  match Json.parse? text with
  | some v => (read v).validated "GraphSnapshot"
  | none => .error ⟨"GraphSnapshot", [⟨[], .notJson⟩]⟩

end Tables

end IntentBuild
