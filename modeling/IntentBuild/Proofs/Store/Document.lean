import IntentBuild.Graph.Document
import IntentBuild.Proofs.Json.RoundTrip
import IntentBuild.Proofs.Store.WellFormed
import IntentBuild.Proofs.Time.Stamp
import Mathlib.Data.List.Nodup

/-!
# The document gives the graph back

Tables whose structured content is lossless and whose stamps are dates are read back from their document:
the same rows in the same order, found by the same keys (`Tables.readDocument_document`).  The document
gives every identifier and every time, so reading it takes nothing from the supply.

The indexes are not written.  They are built anew, and may list their keys in another order, but a key
leads to the same row (`Tables.Agree`).
-/

namespace IntentBuild

open Assoc (Proper)

/-! ## Values -/

namespace Json

mutual

/-- Where the finite numbers are kept, a lossless value is kept. -/
theorem mapFloats_lossless {f : Binary64 → Json} (hf : ∀ {x : Binary64}, x.Normal → f x = .float x) :
    ∀ {v : Json}, v.Lossless → mapFloats f v = v
  | .null, _ | .bool _, _ | .int _, _ | .str _, _ => rfl
  | .float _, h => hf h
  | .arr _, h => congrArg Json.arr (mapFloatsItems_lossless hf h)
  | .obj _, h => congrArg Json.obj (mapFloatsMembers_lossless hf h.2)

theorem mapFloatsItems_lossless {f : Binary64 → Json}
    (hf : ∀ {x : Binary64}, x.Normal → f x = .float x) :
    ∀ {vs : List Json}, LosslessItems vs → mapFloatsItems f vs = vs
  | [], _ => rfl
  | _ :: _, h => congrArg₂ List.cons (mapFloats_lossless hf h.1) (mapFloatsItems_lossless hf h.2)

theorem mapFloatsMembers_lossless {f : Binary64 → Json}
    (hf : ∀ {x : Binary64}, x.Normal → f x = .float x) :
    ∀ {ms : Members}, LosslessMembers ms → mapFloatsMembers f ms = ms
  | [], _ => rfl
  | (_, _) :: _, h =>
      congrArg₂ List.cons (congrArg _ (mapFloats_lossless hf h.1)) (mapFloatsMembers_lossless hf h.2)

end

theorem finite_lossless {v : Json} (h : v.Lossless) : v.finite = v :=
  mapFloats_lossless (fun {x} hx => by
    cases x with
    | nan => exact hx.elim
    | infinite negative => exact hx.elim
    | finite negative m e => rfl) h

/-- The members of an object, with numbers that are not finite left out. -/
def finiteMembers : Members → Members := mapFloatsMembers ofFinite

theorem ofMembers?_finiteMembers (o : Option Members) :
    ofMembers? (o.map finiteMembers) = ofMembers? o := by
  cases o with
  | none => rfl
  | some ms => exact congrArg Json.obj (mapFloatsMembers_mapFloatsMembers mapFloats_ofFinite ms)

theorem lossless_ofText? (o : Option String) : (ofText? o).Lossless := by cases o <;> exact trivial

theorem lossless_ofStamp? (o : Option Stamp) : (ofStamp? o).Lossless := by cases o <;> exact trivial

theorem lossless_ofMembers? {o : Option Members} (h : ∀ ms ∈ o, (Json.obj ms).Lossless) :
    (ofMembers? o).Lossless := by
  cases o with
  | none => trivial
  | some ms =>
      rw [ofMembers?, finite_lossless (h ms rfl)]
      exact h ms rfl

theorem losslessItems_map {α : Type} {f : α → Json} {l : List α} (h : ∀ a ∈ l, (f a).Lossless) :
    LosslessItems (l.map f) := by
  induction l with
  | nil => trivial
  | cons a l ih =>
      exact ⟨h a List.mem_cons_self, ih fun b hb => h b (List.mem_cons_of_mem _ hb)⟩

/-! ## Fields -/

namespace Read

variable {α : Type} {ms : Members} {k key : String} {v : Json} {read : Json → Reading α}

theorem withDefault_same (default : α) :
    withDefault ((key, v) :: ms) key default read = (read v).under (.key key) := by
  simp only [withDefault, withDefault2, fieldValue?, Assoc.get?_cons_same]

theorem withDefault_other (h : k ≠ key) (default : α) :
    withDefault ((k, v) :: ms) key default read = withDefault ms key default read := by
  simp only [withDefault, withDefault2, fieldValue?, Assoc.get?_cons_other h]

theorem required_same :
    required ((key, v) :: ms) key read = (read v).under (.key key) := by
  simp only [required, required2, fieldValue?, Assoc.get?_cons_same]

theorem required_other (h : k ≠ key) :
    required ((k, v) :: ms) key read = required ms key read := by
  simp only [required, required2, fieldValue?, Assoc.get?_cons_other h]

theorem nonempty_str {s : String} (h : s ≠ "") : nonempty (.str s) = .ok s := by
  simp [nonempty, text, Reading.andThen, h]

theorem word_nodeType (t : NodeType) : word NodeType.ofText? (.str t.text) = .ok t := by
  cases t <;> rfl

theorem word_nodeStatus (s : NodeStatus) : word NodeStatus.ofText? (.str s.text) = .ok s := by
  cases s <;> rfl

theorem word_edgeType (t : EdgeType) : word EdgeType.ofText? (.str t.text) = .ok t := by
  cases t <;> rfl

theorem stamp_document {s : Stamp} (h : s.Dated) : stamp (.str s.document) = .ok s := by
  simp only [stamp, Stamp.parse?_document h, Option.some_or]

theorem stamp_ofStamp? {s : Stamp} (h : s.Dated) : stamp (ofStamp? (some s)) = .ok s :=
  stamp_document h

theorem optional_text (o : Option String) : optional text (ofText? o) = .ok o := by
  cases o <;> rfl

theorem optional_stamp {o : Option Stamp} (h : ∀ s ∈ o, s.Dated) :
    optional stamp (ofStamp? o) = .ok o := by
  cases o with
  | none => rfl
  | some s =>
      change some <$> stamp (.str s.document) = _
      rw [stamp_document (h s rfl)]
      rfl

theorem optional_members {o : Option Members} (h : ∀ ms ∈ o, (Json.obj ms).Lossless) :
    optional anyMap (ofMembers? o) = .ok o := by
  cases o with
  | none => rfl
  | some ms =>
      rw [ofMembers?, finite_lossless (h ms rfl)]
      rfl

theorem itemsFrom_map {β : Type} {f : β → Json} {g : β → α} {l : List β}
    (h : ∀ b ∈ l, read (f b) = .ok (g b)) (n : Nat) :
    itemsFrom read n (l.map f) = .ok (l.map g) := by
  induction l generalizing n with
  | nil => rfl
  | cons b l ih =>
      rw [List.map_cons, itemsFrom, h b List.mem_cons_self,
        ih fun c hc => h c (List.mem_cons_of_mem _ hc)]
      rfl

end Read

end Json

/-! ## Rows -/

/-- The node can be written: its structured content is plain, and its stamps are dates. -/
structure Node.Plain (n : Node) : Prop where
  /-- The structured content is plain. -/
  json : ∀ ms ∈ n.json, (Json.obj ms).Plain
  /-- The time of the input is a date. -/
  contentUpdated : ∀ s ∈ n.contentUpdated, s.Dated
  /-- The time of the creation is a date. -/
  created : n.created.Dated
  /-- The time of the last change is a date. -/
  updated : n.updated.Dated

/-- The record can be written: its structured content is plain, and its stamp is a date. -/
structure GenerationRecord.Plain (r : GenerationRecord) : Prop where
  /-- The structured content is plain. -/
  json : ∀ ms ∈ r.json, (Json.obj ms).Plain
  /-- The time of the creation is a date. -/
  created : r.created.Dated

/-- The text of the node preserves it: so does the one of its structured content, and its stamps are
dates. -/
structure Node.Lossless (n : Node) : Prop where
  /-- The structured content is lossless. -/
  json : ∀ ms ∈ n.json, (Json.obj ms).Lossless
  /-- The time of the input is a date. -/
  contentUpdated : ∀ s ∈ n.contentUpdated, s.Dated
  /-- The time of the creation is a date. -/
  created : n.created.Dated
  /-- The time of the last change is a date. -/
  updated : n.updated.Dated

/-- The text of the record preserves it: so does the one of its structured content, and its stamp is a
date. -/
structure GenerationRecord.Lossless (r : GenerationRecord) : Prop where
  /-- The structured content is lossless. -/
  json : ∀ ms ∈ r.json, (Json.obj ms).Lossless
  /-- The time of the creation is a date. -/
  created : r.created.Dated

theorem Node.Plain.lossless {n : Node} (h : n.Plain) : n.Lossless :=
  ⟨fun ms hms => (h.json ms hms).lossless, h.contentUpdated, h.created, h.updated⟩

theorem GenerationRecord.Plain.lossless {r : GenerationRecord} (h : r.Plain) : r.Lossless :=
  ⟨fun ms hms => (h.json ms hms).lossless, h.created⟩

theorem Node.Lossless.toJson {n : Node} (h : n.Lossless) : n.toJson.Lossless := by
  refine ⟨by simp [Proper, Assoc.keys], ?_⟩
  simp [Json.LosslessMembers, Json.Lossless, Json.lossless_ofText?, Json.lossless_ofStamp?,
    Json.lossless_ofMembers? h.json]

theorem Edge.lossless_toJson (e : Edge) : e.toJson.Lossless :=
  ⟨by simp [Proper, Assoc.keys], by simp [Json.LosslessMembers, Json.Lossless]⟩

theorem GenerationRecord.Lossless.toJson {r : GenerationRecord} (h : r.Lossless) :
    r.toJson.Lossless := by
  refine ⟨by simp [Proper, Assoc.keys], ?_⟩
  simp [Json.LosslessMembers, Json.Lossless, Json.lossless_ofMembers? h.json]

/-- The record as the document has it: numbers that are not finite are left out. -/
def GenerationRecord.written (r : GenerationRecord) : GenerationRecord :=
  { r with json := r.json.map Json.finiteMembers }

theorem GenerationRecord.toJson_written (r : GenerationRecord) : r.written.toJson = r.toJson := by
  rw [toJson, toJson]
  change Json.obj [_, _, _, _, _, _, ("json_content", Json.ofMembers? (r.json.map Json.finiteMembers)), _] = _
  rw [Json.ofMembers?_finiteMembers]
  rfl

/-! ## Reading rows -/

open Json.Read

/-- A node is read back. -/
theorem Node.Lossless.read_toJson {n : Node} (h : n.Lossless) (hname : n.name ≠ "") :
    Node.read n.toJson = .ok (pure n) := by
  simp only [Node.read, Node.toJson, record, readFields, optionalField, withDefault_same,
    withDefault_other, required_same, required_other, ne_eq, String.reduceEq, not_false_eq_true,
    text, optional_text, nonempty_str hname, word_nodeType, word_nodeStatus, optional_members h.json,
    optional_stamp h.contentUpdated, stamp_ofStamp? h.created, stamp_ofStamp? h.updated]
  rfl

/-- An edge is read back. -/
theorem Edge.read_toJson {e : Edge} (h : e.created.Dated) : read e.toJson = .ok (pure e) := by
  simp only [read, toJson, record, withDefault_same, withDefault_other, required_same,
    required_other, ne_eq, String.reduceEq, not_false_eq_true, text, word_edgeType, stamp_document h]
  rfl

/-- A record is read back. -/
theorem GenerationRecord.Lossless.read_toJson {r : GenerationRecord} (h : r.Lossless) :
    GenerationRecord.read r.toJson = .ok (pure r) := by
  simp only [GenerationRecord.read, GenerationRecord.toJson, record, optionalField,
    withDefault_same, withDefault_other, required_same, required_other, ne_eq, String.reduceEq, not_false_eq_true, text,
    optional_members h.json, stamp_document h.created]
  rfl

/-- Drafts that are complete take nothing from the supply. -/
theorem Draft.mapM_pure {α : Type} (l : List α) :
    (l.map (pure : α → Draft α)).mapM id = pure l := by
  induction l with
  | nil => rfl
  | cons a l ih => rw [List.map_cons, List.mapM_cons, ih]; rfl

/-! ## Indexes -/

namespace Indexed

variable {κ α : Type} [DecidableEq κ] {own : α → String} {key : α → κ}
  {table : List (String × α)} {index : List (κ × String)}

/-- A table is made of its rows. -/
theorem ofEntries_rows (h : Indexed own key table index) :
    Assoc.ofEntries ((table.map Prod.snd).map fun a => (own a, a)) = table := by
  have hrows : (table.map Prod.snd).map (fun a => (own a, a)) = table := by
    rw [List.map_map]
    refine (List.map_congr_left fun e he => ?_).trans (List.map_id table)
    change (own e.2, e.2) = e
    rw [h.owned (Assoc.get?_of_mem h.proper he)]
  rw [hrows, Assoc.ofEntries_of_proper h.proper]

/-- The keys of the rows are different. -/
theorem proper_keys (h : Indexed own key table index) :
    Proper ((table.map Prod.snd).map fun a => (key a, own a)) := by
  rw [Proper, Assoc.keys, List.map_map, List.map_map]
  refine List.Nodup.map_on (fun d hd e he hk => ?_) (List.Nodup.of_map _ h.proper)
  have hd := Assoc.get?_of_mem h.proper hd
  have he := Assoc.get?_of_mem h.proper he
  have hid := h.unique hd he hk
  exact Prod.ext hid (Option.some.inj (hd.symm.trans (hid ▸ he)))

/-- The index that is built from the rows of a table gives what the index gives. -/
theorem get?_ofEntries_keys (h : Indexed own key table index) (k : κ) :
    Assoc.get? k (Assoc.ofEntries ((table.map Prod.snd).map fun a => (key a, own a))) =
      Assoc.get? k index := by
  rw [Assoc.ofEntries_of_proper h.proper_keys]
  refine Option.ext fun i => ?_
  rw [Assoc.get?_eq_some_iff h.proper_keys, h.inverse]
  constructor
  · intro hm
    obtain ⟨a, ha, hka⟩ := List.mem_map.mp hm
    obtain ⟨e, he, rfl⟩ := List.mem_map.mp ha
    have hget := Assoc.get?_of_mem h.proper he
    cases hka
    exact ⟨e.2, by rwa [h.owned hget], rfl⟩
  · rintro ⟨a, ha, rfl⟩
    refine List.mem_map.mpr ⟨a, List.mem_map.mpr ⟨_, Assoc.mem_of_get? ha, rfl⟩, ?_⟩
    rw [h.owned ha]

/-- An index that is built anew is the inverse of the table, too. -/
theorem rebuilt (h : Indexed own key table index) : Indexed own key table
    (Assoc.ofEntries ((table.map Prod.snd).map fun a => (key a, own a))) where
  proper := h.proper
  properIndex := by
    rw [Assoc.ofEntries_of_proper h.proper_keys]
    exact h.proper_keys
  owned := h.owned
  inverse {k i} := by
    rw [h.get?_ofEntries_keys, h.inverse]

end Indexed

/-! ## Tables -/

namespace Tables

/-- The second tables have the rows of the first ones in the same order, and a key leads to the same
row in both. -/
structure Agree (t t' : Tables) : Prop where
  /-- The same nodes. -/
  nodes : t'.nodes = t.nodes
  /-- The same edges. -/
  edges : t'.edges = t.edges
  /-- The same records. -/
  records : t'.records = t.records
  /-- The same nodes by their keys. -/
  nodeIndex : ∀ k, Assoc.get? k t'.nodeIndex = Assoc.get? k t.nodeIndex
  /-- The same edges by their keys. -/
  edgeIndex : ∀ k, Assoc.get? k t'.edgeIndex = Assoc.get? k t.edgeIndex
  /-- The same records by their keys. -/
  recordIndex : ∀ k, Assoc.get? k t'.recordIndex = Assoc.get? k t.recordIndex

theorem agree_refl (t : Tables) : t.Agree t :=
  ⟨rfl, rfl, rfl, fun _ => rfl, fun _ => rfl, fun _ => rfl⟩

/-- The rows of the tables can be written. -/
structure Plain (t : Tables) : Prop where
  /-- The nodes can be written. -/
  nodes : ∀ n ∈ t.allNodes, n.Plain
  /-- The stamps of the edges are dates. -/
  edges : ∀ e ∈ t.allEdges, e.created.Dated
  /-- The records can be written. -/
  records : ∀ r ∈ t.allRecords, r.Plain

/-- The texts of the rows preserve them. -/
structure Lossless (t : Tables) : Prop where
  /-- The nodes are lossless. -/
  nodes : ∀ n ∈ t.allNodes, n.Lossless
  /-- The stamps of the edges are dates. -/
  edges : ∀ e ∈ t.allEdges, e.created.Dated
  /-- The records are lossless. -/
  records : ∀ r ∈ t.allRecords, r.Lossless

theorem Plain.lossless {t : Tables} (h : t.Plain) : t.Lossless :=
  ⟨fun n hn => (h.nodes n hn).lossless, h.edges, fun r hr => (h.records r hr).lossless⟩

/-- The tables as the document has them. -/
def written (t : Tables) : Tables :=
  { t with records := t.records.map fun e => (e.1, e.2.written) }

/-- The rows of the tables are built of proper values: the objects have one entry for each key, floating
point numbers are in their normal form, and stamps are dates. -/
def Durable (t : Tables) : Prop := t.written.Lossless

/-- Every node has a name. -/
def Named (t : Tables) : Prop := ∀ {i n}, t.node? i = some n → n.name ≠ ""

variable {t : Tables}

theorem allRecords_written (t : Tables) :
    t.written.allRecords = t.allRecords.map GenerationRecord.written := by
  simp [allRecords, written]

theorem document_written (t : Tables) : t.written.document = t.document := by
  have hrecords : t.written.allRecords.map GenerationRecord.toJson =
      t.allRecords.map GenerationRecord.toJson := by
    rw [allRecords_written, List.map_map]
    exact List.map_congr_left fun r _ => r.toJson_written
  rw [document, document, toJson, toJson, hrecords]
  rfl

theorem WellFormed.written (h : t.WellFormed) : t.written.WellFormed where
  nodes := h.nodes
  edges := h.edges
  records := h.records.mapValues (fun _ => rfl) fun _ => rfl
  parents := h.parents
  acyclic := h.acyclic
  ends := h.ends
  owners hr := by
    rw [Tables.written, Assoc.get?_mapValues] at hr
    obtain ⟨r, hr', rfl⟩ := Option.map_eq_some_iff.mp hr
    have howner := h.owners hr'
    exact howner

theorem foldl_setNode (ns : List Node) (t : Tables) : ns.foldl setNode t =
    { t with
      nodes := (ns.map fun n => (n.id, n)).foldl (fun m e => Assoc.set e.1 e.2 m) t.nodes
      nodeIndex := (ns.map fun n => (n.key, n.id)).foldl (fun m e => Assoc.set e.1 e.2 m)
        t.nodeIndex } := by
  induction ns generalizing t with
  | nil => rfl
  | cons n ns ih => exact ih (t.setNode n)

theorem foldl_setEdge (es : List Edge) (t : Tables) : es.foldl setEdge t =
    { t with
      edges := (es.map fun e => (e.id, e)).foldl (fun m e => Assoc.set e.1 e.2 m) t.edges
      edgeIndex := (es.map fun e => (e.key, e.id)).foldl (fun m e => Assoc.set e.1 e.2 m)
        t.edgeIndex } := by
  induction es generalizing t with
  | nil => rfl
  | cons e es ih => exact ih (t.setEdge e)

theorem foldl_setRecord (rs : List GenerationRecord) (t : Tables) : rs.foldl setRecord t =
    { t with
      records := (rs.map fun r => (r.id, r)).foldl (fun m e => Assoc.set e.1 e.2 m) t.records
      recordIndex := (rs.map fun r => (r.key, r.id)).foldl (fun m e => Assoc.set e.1 e.2 m)
        t.recordIndex } := by
  induction rs generalizing t with
  | nil => rfl
  | cons r rs ih => exact ih (t.setRecord r)

/-- The rows of well-formed tables make the tables again, but for the order of the indexes. -/
theorem agree_ofLists (h : t.WellFormed) :
    t.Agree (ofLists t.allNodes t.allEdges t.allRecords) := by
  rw [ofLists, foldl_setNode, foldl_setEdge, foldl_setRecord]
  exact ⟨h.nodes.ofEntries_rows, h.edges.ofEntries_rows, h.records.ofEntries_rows,
    h.nodes.get?_ofEntries_keys, h.edges.get?_ofEntries_keys, h.records.get?_ofEntries_keys⟩

/-- Tables that are made of the rows of well-formed ones are well-formed. -/
theorem wellFormed_ofLists (h : t.WellFormed) :
    (ofLists t.allNodes t.allEdges t.allRecords).WellFormed := by
  rw [ofLists, foldl_setNode, foldl_setEdge, foldl_setRecord]
  have hnodes := h.nodes.ofEntries_rows
  have hedges := h.edges.ofEntries_rows
  have hrecords := h.records.ofEntries_rows
  simp only [Assoc.ofEntries] at hnodes hedges hrecords
  simp only [allNodes, allEdges, allRecords, hnodes, hedges, hrecords]
  exact { nodes := h.nodes.rebuilt, edges := h.edges.rebuilt, records := h.records.rebuilt,
          parents := h.parents, acyclic := h.acyclic, ends := h.ends, owners := h.owners }

theorem lossless_toJson (h : t.Lossless) : t.toJson.Lossless := by
  refine ⟨by simp [Proper, Assoc.keys], ?_⟩
  exact ⟨trivial, Json.losslessItems_map fun n hn => (h.nodes n hn).toJson,
    Json.losslessItems_map fun e _ => e.lossless_toJson,
    Json.losslessItems_map fun r hr => (h.records r hr).toJson, trivial⟩

/-- Tables are read back, and nothing is taken from the supply. -/
theorem read_toJson (hf : t.WellFormed) (h : t.Lossless) (hn : t.Named) :
    read t.toJson = .ok (pure (ofLists t.allNodes t.allEdges t.allRecords)) := by
  have hnodes : Json.Read.list Node.read (.arr (t.allNodes.map Node.toJson)) =
      .ok (t.allNodes.map pure) :=
    itemsFrom_map (fun n hm => (h.nodes n hm).read_toJson (hn ((mem_allNodes hf).mp hm))) 0
  have hedges : Json.Read.list Edge.read (.arr (t.allEdges.map Edge.toJson)) =
      .ok (t.allEdges.map pure) :=
    itemsFrom_map (fun e hm => Edge.read_toJson (h.edges e hm)) 0
  have hrecords : Json.Read.list GenerationRecord.read
      (.arr (t.allRecords.map GenerationRecord.toJson)) = .ok (t.allRecords.map pure) :=
    itemsFrom_map (fun r hm => (h.records r hm).read_toJson) 0
  simp only [read, toJson, record, withDefault_same, withDefault_other, ne_eq, String.reduceEq,
    not_false_eq_true, hnodes, hedges, hrecords]
  change Reading.ok (draft 1 _ _ _) = _
  rw [draft, Draft.mapM_pure, Draft.mapM_pure, Draft.mapM_pure]
  rfl

/-- The document of well-formed tables whose rows are lossless is read back as tables of the same
rows. -/
theorem readDocument_rows (hf : t.WellFormed) (h : t.Lossless) (hn : t.Named) :
    readDocument t.document = .ok (pure (ofLists t.allNodes t.allEdges t.allRecords)) := by
  rw [readDocument, document, Json.parse?_render .document (lossless_toJson h).tidy]
  change (read t.toJson).validated _ = _
  rw [read_toJson hf h hn]
  rfl

/-- The tables that are read back agree with those that were written. -/
theorem readDocument_document (hf : t.WellFormed) (h : t.Lossless) (hn : t.Named) :
    ∃ t', readDocument t.document = .ok (pure t') ∧ t.Agree t' :=
  ⟨_, readDocument_rows hf h hn, agree_ofLists hf⟩

/-- The document keeps its line breaks in a file. -/
theorem unifyLineBreaks_document (h : t.Lossless) : Text.unifyLineBreaks t.document = t.document :=
  Json.unifyLineBreaks_render .document (lossless_toJson h).tidy

/-- The document is not blank. -/
theorem hasInk_document (t : Tables) : Text.hasInk t.document = true := by
  rw [Text.hasInk, document, String.toList_append, List.any_append, Json.render,
    String.toList_ofList, toJson, Json.write, List.any_cons]
  rfl

/-- The document opens with a brace, also when it is read as a text. -/
theorem head?_document (t : Tables) :
    (Text.unifyLineBreaks t.document).toList.head? = some '\x7b' := by
  have h : t.document.toList.head? = some '\x7b' := by
    rw [document, String.toList_append, Json.render, String.toList_ofList, toJson, Json.write]
    rfl
  cases hcs : t.document.toList with
  | nil => rw [hcs] at h; cases h
  | cons a cs =>
      rw [hcs] at h
      cases h
      rw [Text.unifyLineBreaks, hcs, String.toList_ofList]
      rfl

end Tables

end IntentBuild
