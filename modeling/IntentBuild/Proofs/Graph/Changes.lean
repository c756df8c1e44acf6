import IntentBuild.Graph.Tree
import IntentBuild.Proofs.Operation.Runs
import IntentBuild.Proofs.Store.Removal

/-!
# What the operations on the graph do

For every operation on nodes, edges and records, the changes that it makes and the tables that it
leaves when it succeeds.  In a sound workspace no operation meets a missing key.
-/

namespace IntentBuild

namespace Change

variable {α : Type}

/-- The part after the change. -/
def on : Change α → Option α → Option α
  | .keep, a => a
  | .put v, _ => v

end Change

/-- The change belongs to a deletion of nodes of a class. -/
def Event.Drops (D : Node → Prop) : Event → Prop
  | .dropEdge _ | .dropRecord _ => True
  | .dropNode n => D n
  | _ => False

/-- The digests of a node are those of what it holds. -/
structure Node.Digested (n : Node) : Prop where
  /-- The digest of the content. -/
  content : n.contentHash = n.content.map Sha256.hex
  /-- The digest of the structured content. -/
  json : Graph.membersHash n.json = .ok n.jsonHash

namespace Graph

open Op

variable {A : Event → Prop} {w : Workspace}

/-! ## Readers -/

theorem reader_find? (id : String) : Reader (find? id) := reader_tables.bind fun _ => .pure _

theorem reader_require (id : String) : Reader (require id) :=
  (reader_find? id).bind fun
    | some _ => .pure _
    | none => .throw _

theorem reader_child? (parent : Option Node) (type : NodeType) (name : String) :
    Reader (child? parent type name) :=
  reader_instanceId.bind fun _ => reader_tables.bind fun _ => .pure _

theorem reader_children (parent : Node) (type : Option NodeType) : Reader (children parent type) :=
  reader_tables.bind fun _ => .pure _

theorem reader_edgesTo (n : Node) (type : Option EdgeType) : Reader (edgesTo n type) :=
  reader_tables.bind fun _ => .pure _

theorem reader_entryOf {α : Type} (id : Option String) (table : List (String × α)) :
    Reader (entryOf id table) := by
  unfold entryOf
  split
  · exact .pure _
  · split
    · exact .pure _
    · exact .throw _

theorem reader_findEdge? (k : EdgeKey) : Reader (findEdge? k) :=
  reader_tables.bind fun _ => reader_entryOf _ _

theorem reader_findRecord? (k : RecordKey) : Reader (findRecord? k) :=
  reader_tables.bind fun _ => reader_entryOf _ _

theorem reader_records (n : Node) (tool : Option String) : Reader (records n tool) :=
  reader_tables.bind fun _ => .lift _ _

theorem reader_path? (n : Node) : Reader (path? n) := by
  unfold path?
  split
  · exact .pure _
  · exact .pure _
  · exact .throw _

theorem reader_pathOf (n : Node) : Reader (pathOf n) :=
  (reader_path? n).bind fun
    | some _ => .pure _
    | none => .throw _

theorem reader_depthBound : Reader depthBound := reader_tables.bind fun _ => .pure _

/-- A node that is required is in the table. -/
theorem require_eq_ok {id : String} {n : Node} (h : (require id).run w = .ok n w) :
    w.tables.node? id = some n := by
  have hfind : (find? id).run w = .ok (w.tables.node? id) w := rfl
  rw [require, bind_ok hfind] at h
  cases hm : w.tables.node? id with
  | none => rw [hm] at h; cases h
  | some m => rw [hm] at h; cases h; rfl

/-- The edge that a key leads to. -/
theorem findEdge?_eq_ok (hw : w.Sound) {k : EdgeKey} {e : Option Edge}
    (h : (findEdge? k).run w = .ok e w) :
    (∀ e', e = some e' → Assoc.get? e'.id w.tables.edges = some e' ∧ e'.key = k) ∧
      (e = none → k ∉ Assoc.keys w.tables.edgeIndex) := by
  change (entryOf (Assoc.get? k w.tables.edgeIndex) w.tables.edges).run w = _ at h
  cases hi : Assoc.get? k w.tables.edgeIndex with
  | none =>
      rw [hi] at h
      cases h
      exact ⟨fun _ he => (nomatch he), fun _ => Assoc.get?_eq_none_iff.mp hi⟩
  | some i =>
      obtain ⟨e', he', hk⟩ := hw.wellFormed.edges.inverse.mp hi
      rw [hi, entryOf, he'] at h
      cases h
      refine ⟨fun e'' h => ?_, fun h => nomatch h⟩
      cases h
      exact ⟨by rw [hw.wellFormed.edges.owned he']; exact he', hk⟩

/-- The record that a key leads to. -/
theorem findRecord?_eq_ok (hw : w.Sound) {k : RecordKey} {r : Option GenerationRecord}
    (h : (findRecord? k).run w = .ok r w) :
    (∀ r', r = some r' → Assoc.get? r'.id w.tables.records = some r' ∧ r'.key = k) ∧
      (r = none → k ∉ Assoc.keys w.tables.recordIndex) := by
  change (entryOf (Assoc.get? k w.tables.recordIndex) w.tables.records).run w = _ at h
  cases hi : Assoc.get? k w.tables.recordIndex with
  | none =>
      rw [hi] at h
      cases h
      exact ⟨fun _ he => (nomatch he), fun _ => Assoc.get?_eq_none_iff.mp hi⟩
  | some i =>
      obtain ⟨r', hr', hk⟩ := hw.wellFormed.records.inverse.mp hi
      rw [hi, entryOf, hr'] at h
      cases h
      refine ⟨fun r'' h => ?_, fun h => nomatch h⟩
      cases h
      exact ⟨by rw [hw.wellFormed.records.owned hr']; exact hr', hk⟩

/-! ## New nodes -/

/-- Exactly exact structured content has a digest. -/
theorem membersHash_eq_ok {json : Option Members} :
    (∃ hash, membersHash json = .ok hash) ↔ Json.ExactMembers (json.getD []) := by
  cases json with
  | none => exact ⟨fun _ => trivial, fun _ => ⟨none, rfl⟩⟩
  | some ms =>
      refine Iff.trans ?_ (Json.contentHash_eq_ok (.obj ms))
      rw [membersHash]
      cases (Json.obj ms).contentHash <;> simp

/-- The node at a key was there, or is new with some structured content and nothing else. -/
inductive Found (t : Tables) (k : NodeKey) (json : Option Members) (n : Node) : Tables → Prop
  | old (h : t.findNode? k = some n) : Found t k json n t
  | new {t' : Tables} (h : t.insertNode n = .ok t') (hk : n.key = k) (hj : n.json = json)
      (hc : n.content = none) (hs : n.contentUpdated = none) : Found t k json n t'

/-- The node that was found or made is in the table. -/
theorem Found.node? {t t' : Tables} {k : NodeKey} {json : Option Members} {n : Node}
    (h : Found t k json n t') (hf : t.WellFormed) : t'.node? n.id = some n ∧ n.key = k := by
  cases h with
  | old h => exact (Tables.findNode?_eq_some hf).mp h
  | new h hk _ _ _ =>
      obtain ⟨rfl, -⟩ := Tables.insertNode_eq_ok h
      exact ⟨Assoc.get?_set_same .., hk⟩

/-- A node that is there is found, and nothing is made. -/
theorem Found.eq_old {t t' : Tables} {k : NodeKey} {json : Option Members} {n m : Node}
    (h : Found t k json n t') (hf : t.WellFormed) (hm : t.findNode? k = some m) :
    n = m ∧ t' = t := by
  cases h with
  | old h =>
      rw [hm, Option.some.injEq] at h
      exact ⟨h.symm, rfl⟩
  | new h hk _ _ _ =>
      obtain ⟨-, -, hnot, -⟩ := Tables.insertNode_eq_ok h
      obtain ⟨hm, hmk⟩ := (Tables.findNode?_eq_some hf).mp hm
      exact absurd (Assoc.mem_keys_of_get? (hf.nodes.index_eq hm)) (hmk ▸ hk ▸ hnot)

/-- A new node takes the next identifier. -/
theorem takes_draftNode {f : Node.Fields} (hf : f.id = none) (s : Supply) :
    Supply.Takes s (f.draft.run s).2 (f.draft.run s).1.id := by
  obtain ⟨id, parent, instanceId, status, type, name, content, contentHash, json, jsonHash,
    contentUpdated, created, updated⟩ := f
  cases hf
  exact Supply.takes_idOf (Supply.le_trans (Supply.le_orNow created _) (Supply.le_orNow updated _))

/-- Tables with something new are put in place after its identifier was taken. -/
theorem runs_insertDrawn {α : Type} {e : Event} {s : Supply} {r : Except GraphFault Tables} {a : α}
    (hs : w.supply.Le s) (he : A e)
    (hr : ∀ t, r = .ok t → Happens e w ({ w with supply := s }.withTables t)) (hw : w.Sound) :
    Leads A w (fun b w' => b = a ∧ r = .ok w'.tables)
      ((lift .graph r >>= fun t => commit t >>= fun _ => pure a : Op α).run
        { w with supply := s }) := by
  cases r with
  | error e => exact Way.quiet (e := .supply) trivial (.supply w hs) rfl rfl
  | ok t =>
      have hc := commit_reach (w := { w with supply := s }) (.single (.inr he) (hr t rfl)) rfl hw
      rw [bind_ok (lift_ok ..)]
      cases hct : (commit t).run { w with supply := s } with
      | ok _ w' =>
          rw [hct] at hc
          rw [bind_ok hct]
          exact ⟨hc.1, rfl, by rw [hc.2]⟩
      | error e w' =>
          rw [hct] at hc
          rw [bind_error hct]
          exact hc

theorem checkName_eq_ok {name : String} : checkName name = .ok () ↔ name ≠ "" := by
  by_cases h : name = "" <;> simp [checkName, h]

/-- A drafted node is inserted, or nothing changes but the supply. -/
theorem runs_insertDraft {d : Draft Node}
    (hd : Supply.Takes w.supply (d.run w.supply).2 (d.run w.supply).1.id)
    (hj : Json.ExactMembers (d.run w.supply).1.members) (hn : (d.run w.supply).1.name ≠ "")
    (hA : A (.node (d.run w.supply).1)) :
    Runs A w (complete d >>= insertNode) fun n w' =>
      n = (d.run w.supply).1 ∧ w.tables.insertNode (d.run w.supply).1 = .ok w'.tables := by
  have hrun : (complete d).run w = .ok (d.run w.supply).1 { w with supply := (d.run w.supply).2 } :=
    rfl
  refine .draws hrun fun hw => ?_
  exact runs_insertDrawn hd.le hA (fun t ht => .node ht hd hj hn) hw

theorem runs_getOrCreate {parent : Option Node} {type : NodeType} {name : String}
    {json : Option Members}
    (hA : ∀ n, n.key = ⟨parent.map Node.id, w.graph.instanceId, type, name⟩ → n.json = json →
      n.Digested → A (.node n)) :
    Runs A w (getOrCreate parent type name json) fun n w' =>
      Found w.tables ⟨parent.map Node.id, w.graph.instanceId, type, name⟩ json n w'.tables := by
  refine Runs.transaction (fun {n w w'} hr h => hr.tables_of_quiet ▸ h) fun w' hw' ht hr => ?_
  rw [← ht, ← hr.instanceId_eq]
  rw [← hr.instanceId_eq] at hA
  refine .reads rfl ?_
  split
  · rename_i n hn
    exact .pure (.old hn)
  · refine .lift fun hash hh => .lift fun _ hname => .reads rfl ?_
    have hj : Json.ExactMembers (json.getD []) := membersHash_eq_ok.mp ⟨hash, hh⟩
    refine (runs_insertDraft (takes_draftNode (by rfl) _) ?_ ?_ (hA _ rfl rfl ?_)).weaken
      fun n w'' _ h => ?_
    · exact hj
    · exact checkName_eq_ok.mp hname
    · exact ⟨rfl, hh⟩
    · obtain ⟨rfl, h⟩ := h
      exact .new h rfl rfl rfl rfl

/-! ## Content -/

/-- A node with parts of its content changed, their digests with them, and the time of the change. -/
structure Revised (content : Change String) (json : Change Members) (stamp : Change Stamp)
    (old new : Node) : Prop where
  /-- The parts that are asked for are put in. -/
  put : ∃ hash u, membersHash json.value? = .ok hash ∧
    new = { putStamp (putJson (putContent old content) hash json) stamp with updated := u }

namespace Revised

variable {c : Change String} {j : Change Members} {s : Change Stamp} {old new : Node}

theorem id (hr : Revised c j s old new) : new.id = old.id := by
  obtain ⟨hash, u, -, rfl⟩ := hr
  cases c <;> cases j <;> cases s <;> rfl

/-- The address stays. -/
theorem key (hr : Revised c j s old new) : new.key = old.key := by
  obtain ⟨hash, u, -, rfl⟩ := hr
  cases c <;> cases j <;> cases s <;> rfl

theorem content (hr : Revised c j s old new) :
    new.content = c.on old.content := by
  obtain ⟨hash, u, -, rfl⟩ := hr
  cases c <;> cases j <;> cases s <;> rfl

theorem json (hr : Revised c j s old new) : new.json = j.on old.json := by
  obtain ⟨hash, u, -, rfl⟩ := hr
  cases c <;> cases j <;> cases s <;> rfl

theorem stamp (hr : Revised c j s old new) :
    new.contentUpdated = s.on old.contentUpdated := by
  obtain ⟨hash, u, -, rfl⟩ := hr
  cases c <;> cases j <;> cases s <;> rfl

/-- Exact content stays exact, as what is put in has a digest. -/
theorem exact (hr : Revised c j s old new) (ho : Json.ExactMembers old.members) :
    Json.ExactMembers new.members := by
  rw [Node.members, hr.json]
  cases j with
  | keep => exact ho
  | put ms =>
      obtain ⟨hash, -, hh, -⟩ := hr
      exact membersHash_eq_ok.mp ⟨hash, hh⟩

/-- The digests stay in step. -/
theorem digested (hr : Revised c j s old new) (ho : old.Digested) : new.Digested := by
  obtain ⟨hash, u, hh, rfl⟩ := hr
  have hcontent (n : Node) (hn : n.Digested) : (putContent n c).Digested := by
    cases c with
    | keep => exact hn
    | put text => exact ⟨rfl, hn.json⟩
  have hjson (n : Node) (hn : n.Digested) : (putJson n hash j).Digested := by
    cases j with
    | keep => exact hn
    | put ms => exact ⟨hn.content, hh⟩
  obtain ⟨hc, hj⟩ := hjson _ (hcontent old ho)
  cases s <;> exact ⟨hc, hj⟩

end Revised

theorem revised_put {content : Change String} {json : Change Members} {stamp : Change Stamp}
    {hash : Option String} (hh : membersHash json.value? = .ok hash) (old : Node) (u : Stamp) :
    Revised content json stamp old
      { putStamp (putJson (putContent old content) hash json) stamp with updated := u } :=
  ⟨hash, u, hh, rfl⟩

theorem runs_complete {α : Type} {d : Draft α} (h : w.supply.Le (d.run w.supply).2) :
    Runs A w (complete d) fun a w' =>
      a = (d.run w.supply).1 ∧ w' = { w with supply := (d.run w.supply).2 } :=
  fun _ => ⟨.quiet (e := .supply) trivial (.supply w h) rfl rfl, rfl, rfl⟩

theorem runs_remove_done {t : Tables} (h : w.Sound → Reach A w (w.withTables t)) :
    Runs A w (remove (.done t)) fun _ w' => w'.tables = t := by
  refine .bind (Q := fun _ w' => w'.tables = t) (fun hw => ?_) fun _ _ _ _ h => .pure h
  exact commit_reach (h hw) rfl hw

/-- A node that keeps its address is put in place. -/
theorem runs_updateNode {n old : Node} (ho : w.tables.node? n.id = some old)
    (hk : n.key = old.key) (hj : Json.ExactMembers n.members)
    (hA : ∀ u, A (.content old { n with updated := u })) :
    Runs A w (updateNode n) fun n' w' =>
      (∃ u, n' = { n with updated := u }) ∧ w'.tables = w.tables.putNode n' := by
  refine .reads rfl ?_
  rw [ho]
  refine (runs_complete (Supply.le_orNow none _)).bind fun u w' _ _ h => ?_
  obtain ⟨-, rfl⟩ := h
  refine .reads rfl ?_
  rw [show Workspace.graph _ = w.graph from rfl,
    Tables.updateNode_of_key_eq (n := { n with updated := u }) ho hk]
  refine (runs_remove_done fun _ => ?_).bind fun _ _ _ _ h => .pure ⟨⟨u, rfl⟩, h⟩
  exact .single (.inr (hA u)) (.content ho hk hj)

/-- The content of a node is changed where the node stands. -/
theorem runs_setContent {n : Node} {content : Change String} {json : Change Members}
    {stamp : Change Stamp}
    (hA : ∀ old new, w.tables.node? n.id = some old → Revised content json stamp old new →
      A (.content old new)) :
    Runs A w (setContent n content json stamp) fun n' w' =>
      ∃ old, w.tables.node? n.id = some old ∧ Revised content json stamp old n' ∧
        w'.tables = w.tables.putNode n' := by
  intro hw
  refine Runs.lift (fun hash hh => ?_) hw
  refine .reader (reader_require _) fun old h => ?_
  have ho := require_eq_ok h
  have hid : old.id = n.id := hw.wellFormed.nodes.owned ho
  have hr (u : Stamp) : Revised content json stamp old _ := revised_put hh old u
  have hj := (hr old.updated).exact (hw.exact ho)
  have hkey : (putStamp (putJson (putContent old content) hash json) stamp).key = old.key :=
    (hr old.updated).key
  refine (runs_updateNode ?_ hkey hj fun u => hA _ _ ho (hr u)).weaken fun n' w' _ h => ?_
  · rw [(hr old.updated).id, hid]; exact ho
  · obtain ⟨⟨u, rfl⟩, ht⟩ := h
    exact ⟨old, ho, hr u, ht⟩

theorem runs_upsertDerived {parent : Node} {type : NodeType} {name : String}
    {json : Option Members} {content : Change String}
    (hN : ∀ n, n.key = ⟨some parent.id, w.graph.instanceId, type, name⟩ → n.json = none →
      n.Digested → A (.node n))
    (hC : ∀ old new, old.key = ⟨some parent.id, w.graph.instanceId, type, name⟩ →
      Revised content (.put json) .keep old new → A (.content old new)) :
    Runs A w (upsertDerived parent type name json content) fun n w' =>
      n.key = ⟨some parent.id, w.graph.instanceId, type, name⟩ ∧ n.json = json ∧
        w'.tables.node? n.id = some n := by
  intro hw
  have hget : Runs A w (getOrCreate (some parent) type name none) _ := runs_getOrCreate hN
  refine hget.bind (fun n w' hw' _ h => ?_) hw
  obtain ⟨hn, hk⟩ := h.node? hw.wellFormed
  refine (runs_setContent fun old new ho hr => hC old new ?_ hr).weaken fun n' w'' _ h => ?_
  · rw [hn, Option.some.injEq] at ho
    exact ho ▸ hk
  · obtain ⟨old, ho, hr, ht⟩ := h
    rw [hn, Option.some.injEq] at ho
    subst ho
    refine ⟨hr.key.trans hk, hr.json, ?_⟩
    rw [ht, Tables.node?_putNode, if_pos rfl]

/-! ## Deleting -/

theorem runs_deleteNode {id : String}
    (hA : ∀ n, n.id = id → w.tables.node? id = some n → A (.dropNode n)) :
    Runs A w (deleteNode id) fun _ w' => w'.tables = w.tables.without [id] [] [] := by
  intro hw
  refine Runs.reads rfl ?_ hw
  cases hd : w.tables.deleteNode id with
  | absent =>
      refine .bind (Q := fun _ w' => w'.tables = w.tables.without [id] [] []) (.pure ?_)
        fun _ _ _ _ h => .pure h
      refine (Tables.without_node_of_none hw.wellFormed ?_).symm
      unfold Tables.deleteNode at hd
      split at hd
      · assumption
      · repeat' split at hd
        all_goals cases hd
  | done t =>
      obtain ⟨n, rfl, hn, hu, rfl⟩ := Tables.deleteNode_eq_done hw.wellFormed hd
      refine (runs_remove_done fun _ => ?_).bind fun _ _ _ _ h => .pure ?_
      · exact .single (.inr (hA n rfl hn)) (.dropNode hn hu)
      · exact h.trans (Tables.dropNode_eq_without hw.wellFormed hn)
  | noKey t => exact absurd hd (Tables.deleteNode_ne_noKey hw.wellFormed)
  | refused f => exact .bind (.throw _) fun _ _ _ _ h => .pure h

theorem runs_deleteEdge {id : String}
    (hA : ∀ e, Assoc.get? id w.tables.edges = some e → A (.dropEdge e)) :
    Runs A w (deleteEdge id) fun _ w' => w'.tables = w.tables.without [] [id] [] := by
  intro hw
  refine Runs.reads rfl ?_ hw
  cases he : Assoc.get? id w.tables.edges with
  | none =>
      rw [Tables.deleteEdge_of_none he]
      exact .reads rfl (.pure (Tables.without_edge_of_none hw.wellFormed he).symm)
  | some e =>
      have hid := hw.wellFormed.edges.owned he
      subst hid
      rw [Tables.deleteEdge_of_get? hw.wellFormed he]
      refine (runs_remove_done fun _ => ?_).bind fun _ _ _ _ h => .pure ?_
      · exact .single (.inr (hA e he)) (.dropEdge he)
      · exact h.trans (Tables.dropEdge_eq_without hw.wellFormed he)

theorem runs_deleteRecord {id : String}
    (hA : ∀ r, Assoc.get? id w.tables.records = some r → A (.dropRecord r)) :
    Runs A w (deleteRecord id) fun _ w' => w'.tables = w.tables.without [] [] [id] := by
  intro hw
  refine Runs.reads rfl ?_ hw
  cases hr : Assoc.get? id w.tables.records with
  | none =>
      rw [Tables.deleteRecord_of_none hr]
      exact .reads rfl (.pure (Tables.without_record_of_none hw.wellFormed hr).symm)
  | some r =>
      have hid := hw.wellFormed.records.owned hr
      subst hid
      rw [Tables.deleteRecord_of_get? hw.wellFormed hr]
      refine (runs_remove_done fun _ => ?_).bind fun _ _ _ _ h => .pure ?_
      · exact .single (.inr (hA r hr)) (.dropRecord hr)
      · exact h.trans (Tables.dropRecord_eq_without hw.wellFormed hr)

/-! ## Edges and records -/

/-- A new edge takes the next identifier. -/
theorem takes_draftEdge (source target : String) (type : EdgeType) (name : String) (s : Supply) :
    Supply.Takes s ((Edge.draft none source target type name none).run s).2
      ((Edge.draft none source target type name none).run s).1.id :=
  Supply.takes_idOf (Supply.le_orNow none _)

/-- A new record takes the next identifier. -/
theorem takes_draftRecord (nodeId toolId promptHash prompt content : String)
    (json : Option Members) (s : Supply) :
    Supply.Takes s
      ((GenerationRecord.draft none nodeId toolId promptHash prompt content json none).run s).2
      ((GenerationRecord.draft none nodeId toolId promptHash prompt content json none).run s).1.id :=
  Supply.takes_idOf (Supply.le_orNow none _)

/-- An edge with the key was there, or is new. -/
inductive Linked (t : Tables) (e : Edge) : Tables → Prop
  | old (h : Assoc.get? e.id t.edges = some e) : Linked t e t
  | new {t' : Tables} (h : t.insertEdge e = .ok t') (hi : e.id ∉ Assoc.keys t.edges) : Linked t e t'

theorem runs_link {source target : Node} {type : EdgeType} {name : String}
    (hA : ∀ e, e.key = ⟨source.id, target.id, type, name⟩ → A (.edge e)) :
    Runs A w (link source target type name) fun e w' =>
      e.key = ⟨source.id, target.id, type, name⟩ ∧ Linked w.tables e w'.tables := by
  intro hw
  refine Runs.reader (reader_findEdge? _) (fun found hf => ?_) hw
  have hfound := findEdge?_eq_ok hw hf
  cases found with
  | some e =>
      obtain ⟨he, hk⟩ := hfound.1 e rfl
      exact .pure ⟨hk, .old he⟩
  | none =>
      have hd := takes_draftEdge source.id target.id type name w.supply
      refine .draws rfl fun hw => ?_
      refine (runs_insertDrawn hd.le (hA _ rfl) (fun t ht => .edge ht hd) hw).weaken
        fun e w' _ h => ?_
      obtain ⟨rfl, h⟩ := h
      exact ⟨rfl, .new h fun hm => hd.fresh (hw.spent (.inr (.inl hm)))⟩

theorem runs_unlink {source target : Node} {type : EdgeType} {name : String}
    (hA : ∀ e, e.key = ⟨source.id, target.id, type, name⟩ → A (.dropEdge e)) :
    Runs A w (unlink source target type name) fun b w' =>
      (b = false ∧ (⟨source.id, target.id, type, name⟩ : EdgeKey) ∉ Assoc.keys w.tables.edgeIndex ∧
        w'.tables = w.tables) ∨
      (b = true ∧ ∃ e, Assoc.get? e.id w.tables.edges = some e ∧
        e.key = ⟨source.id, target.id, type, name⟩ ∧
        w'.tables = w.tables.without [] [e.id] []) := by
  intro hw
  refine Runs.reader (reader_findEdge? _) (fun found hf => ?_) hw
  have hfound := findEdge?_eq_ok hw hf
  cases found with
  | none => exact .pure (.inl ⟨rfl, hfound.2 rfl, rfl⟩)
  | some e =>
      obtain ⟨he, hk⟩ := hfound.1 e rfl
      refine (runs_deleteEdge fun e' he' => ?_).bind fun _ w' _ _ h => .pure (.inr ⟨rfl, e, he, hk, h⟩)
      rw [he, Option.some.injEq] at he'
      exact he' ▸ hA e hk

/-- A drafted record is stored under its key, or nothing changes but the supply. -/
theorem runs_upsertDraft {d : Draft GenerationRecord}
    (hd : Supply.Takes w.supply (d.run w.supply).2 (d.run w.supply).1.id)
    (hA : A (.record (w.tables.kept (d.run w.supply).1))) :
    Runs A w (complete d >>= upsertRecord) fun r w' =>
      r = w.tables.kept (d.run w.supply).1 ∧ w'.tables = w.tables.setRecord r := by
  have hrun : (complete d).run w = .ok (d.run w.supply).1 { w with supply := (d.run w.supply).2 } :=
    rfl
  refine .draws hrun fun hw => ?_
  change Leads A w _ ((lift .graph (w.tables.upsertRecord (d.run w.supply).1) >>=
    fun p => commit p.1 >>= fun _ => pure p.2 : Op GenerationRecord).run
      { w with supply := (d.run w.supply).2 })
  cases hu : w.tables.upsertRecord (d.run w.supply).1 with
  | error e => exact Way.quiet (e := .supply) trivial (.supply w hd.le) rfl rfl
  | ok p =>
      have hu : w.tables.upsertRecord (d.run w.supply).1 = .ok (p.1, p.2) := hu
      obtain ⟨hk, ht, hn⟩ := Tables.upsertRecord_eq_ok hu
      have hr : Reach A w ({ w with supply := (d.run w.supply).2 }.withTables p.1) := by
        rw [ht]
        exact .single (.inr hA) (.record hn hd)
      have hc := commit_reach (w := { w with supply := (d.run w.supply).2 }) hr rfl hw
      rw [bind_ok (lift_ok ..)]
      cases hct : (commit p.1).run { w with supply := (d.run w.supply).2 } with
      | ok _ w' =>
          rw [hct] at hc
          rw [bind_ok hct]
          exact ⟨hc.1, hk, by rw [hc.2, ht, hk]⟩
      | error e w' =>
          rw [hct] at hc
          rw [bind_error hct]
          exact hc

/-! ## Subtrees -/

/-- A loop of deletions removes rows one by one. -/
theorem runs_deleteAll {α : Type} {l : List α} {id : α → String} {x : String → Op Unit}
    {f : List String → Tables → Tables} (hnil : ∀ t, f [] t = t)
    (hcons : ∀ i is t, f is (f [i] t) = f (i :: is) t)
    (hx : ∀ a ∈ l, ∀ is w', w'.tables = f is w.tables →
      Runs A w' (x (id a)) fun _ w'' => w''.tables = f [id a] w'.tables) :
    Runs A w (forIn l PUnit.unit fun a _ => x (id a) >>= fun _ => pure (.yield ⟨⟩))
      fun _ w' => w'.tables = f (l.map id) w.tables := by
  induction l generalizing w with
  | nil => exact .pure (hnil _).symm
  | cons a l ih =>
      rw [List.forIn_cons]
      have hfirst := hx a (.head _) [] w (hnil _).symm
      refine Runs.bind (hfirst.bind (R := fun s w' => s = .yield ⟨⟩ ∧
        w'.tables = f [id a] w.tables) fun _ _ _ _ h => .pure ⟨rfl, h⟩) fun s w' _ _ h => ?_
      obtain ⟨rfl, ht⟩ := h
      have hrest (b : α) (hb : b ∈ l) (is : List String) (v : Workspace)
          (hv : v.tables = f is w'.tables) :
          Runs A v (x (id b)) fun _ v' => v'.tables = f [id b] v.tables :=
        hx b (.tail _ hb) (id a :: is) v (by rw [hv, ht, hcons])
      refine (ih hrest).weaken fun _ w'' _ h => ?_
      rw [h, ht, hcons, List.map_cons]

/-- Edges that were read are deleted one by one. -/
theorem runs_deleteEdges {l : List Edge} (hf : w.tables.WellFormed)
    (hl : ∀ e ∈ l, e ∈ w.tables.allEdges) (hA : ∀ e ∈ l, A (.dropEdge e)) :
    Runs A w (forIn l PUnit.unit fun e _ => deleteEdge e.id >>= fun _ => pure (.yield ⟨⟩))
      fun _ w' => w'.tables = w.tables.without [] (l.map Edge.id) [] := by
  refine runs_deleteAll (f := fun is t => t.without [] is []) Tables.without_nil
    (fun i is t => Tables.without_without ..) fun e he is w' hw' => runs_deleteEdge fun e' he' => ?_
  rw [hw', Tables.without, Tables.get?_sparing] at he'
  split at he'
  · cases he'
  · rw [(Tables.mem_allEdges hf).mp (hl e he), Option.some.injEq] at he'
    exact he' ▸ hA e he

/-- Records that were read are deleted one by one. -/
theorem runs_deleteRecords {l : List GenerationRecord} (hf : w.tables.WellFormed)
    (hl : ∀ r ∈ l, r ∈ w.tables.allRecords) (hA : ∀ r ∈ l, A (.dropRecord r)) :
    Runs A w (forIn l PUnit.unit fun r _ => deleteRecord r.id >>= fun _ => pure (.yield ⟨⟩))
      fun _ w' => w'.tables = w.tables.without [] [] (l.map GenerationRecord.id) := by
  refine runs_deleteAll (f := fun is t => t.without [] [] is) Tables.without_nil
    (fun i is t => Tables.without_without ..) fun r hr is w' hw' => runs_deleteRecord fun r' hr' => ?_
  rw [hw', Tables.without, Tables.get?_sparing] at hr'
  split at hr'
  · cases hr'
  · rw [(Tables.mem_allRecords hf).mp (hl r hr), Option.some.injEq] at hr'
    exact hr' ▸ hA r hr

theorem mem_edgesFrom {t : Tables} {id : String} {type : Option EdgeType} {e : Edge}
    (h : e ∈ t.edgesFrom id type) : e ∈ t.allEdges ∧ e.source = id := by
  obtain ⟨he, hp⟩ := List.mem_filter.mp h
  rw [Bool.and_eq_true, beq_iff_eq] at hp
  exact ⟨he, hp.1⟩

theorem mem_edgesTo {t : Tables} {id : String} {type : Option EdgeType} {e : Edge}
    (h : e ∈ t.edgesTo id type) : e ∈ t.allEdges ∧ e.target = id := by
  obtain ⟨he, hp⟩ := List.mem_filter.mp h
  rw [Bool.and_eq_true, beq_iff_eq] at hp
  exact ⟨he, hp.1⟩

/-- The records of a node in any order. -/
theorem mem_records {n : Node} {tool : Option String} {l : List GenerationRecord}
    (h : (records n tool).run w = .ok l w) {r : GenerationRecord} (hr : r ∈ l) :
    r ∈ w.tables.allRecords ∧ r.nodeId = n.id := by
  have sub (rs : List GenerationRecord) (h : oldestFirst rs = .ok l) : r ∈ rs := by
    unfold oldestFirst at h
    split at h
    · cases h; cases hr
    · split at h
      · cases h; exact Sorting.mem_sort.mp hr
      · cases h
  change (lift (fun e => e) (oldestFirst (w.tables.recordsOf n.id tool))).run w = _ at h
  cases ho : oldestFirst (w.tables.recordsOf n.id tool) with
  | error f => rw [ho] at h; cases h
  | ok l' =>
      rw [ho] at h
      cases h
      obtain ⟨hmem, hp⟩ := List.mem_filter.mp (sub _ ho)
      rw [Bool.and_eq_true, beq_iff_eq] at hp
      exact ⟨hmem, hp.1⟩

/-- The edges from and to a node go, and its records, and nothing else. -/
theorem runs_detach {n : Node}
    (hE : n.id ∈ Assoc.keys w.tables.nodes → ∀ e : Edge, e.source = n.id ∨ e.target = n.id →
      A (.dropEdge e))
    (hR : n.id ∈ Assoc.keys w.tables.nodes → ∀ r : GenerationRecord, r.nodeId = n.id →
      A (.dropRecord r)) :
    Runs A w (detach n) fun _ w' => Tables.Clears w.tables [] [n.id] w'.tables := by
  intro hw
  have edge {w' : Workspace} (hw' : w'.Sound) (hn : w'.tables.nodes = w.tables.nodes) {e : Edge}
      (he : e ∈ w'.tables.allEdges) (hid : e.source = n.id ∨ e.target = n.id) : A (.dropEdge e) := by
    obtain ⟨hs, ht⟩ := hw'.wellFormed.ends ((Tables.mem_allEdges hw'.wellFormed).mp he)
    rw [hn] at hs ht
    exact hE (hid.elim (fun h => h ▸ hs) fun h => h ▸ ht) e hid
  refine Runs.reads rfl ((runs_deleteEdges hw.wellFormed (fun e he => (mem_edgesFrom he).1)
    fun e he => edge hw rfl (mem_edgesFrom he).1 (.inl (mem_edgesFrom he).2)).bind
      fun _ w₁ hw₁ _ h₁ => ?_) hw
  have hn₁ : w₁.tables.nodes = w.tables.nodes := by rw [h₁]; exact sparing_nil ..
  refine .reads rfl ((runs_deleteEdges hw₁.wellFormed (fun e he => (mem_edgesTo he).1)
    fun e he => edge hw₁ hn₁ (mem_edgesTo he).1 (.inr (mem_edgesTo he).2)).bind
      fun _ w₂ hw₂ _ h₂ => ?_)
  have hn₂ : w₂.tables.nodes = w.tables.nodes := by rw [h₂, ← hn₁]; exact sparing_nil ..
  refine .reader (reader_records _ _) fun l hl => (runs_deleteRecords hw₂.wellFormed
    (fun r hr => (mem_records hl hr).1) fun r hr => ?_).bind fun _ w₃ _ _ h₃ => .pure ?_
  · obtain ⟨hr, hid⟩ := mem_records hl hr
    have hkey := hw₂.wellFormed.owners ((Tables.mem_allRecords hw₂.wellFormed).mp hr)
    rw [hn₂, hid] at hkey
    exact hR hkey r hid
  have h₁ : Tables.Clears w.tables [] [n.id] w₁.tables := h₁ ▸
    Tables.Clears.of_edges hw.wellFormed fun e he => ⟨(mem_edgesFrom he).1, .inl (mem_edgesFrom he).2⟩
  have h₂ : Tables.Clears w₁.tables [] [n.id] w₂.tables := h₂ ▸
    Tables.Clears.of_edges hw₁.wellFormed fun e he => ⟨(mem_edgesTo he).1, .inr (mem_edgesTo he).2⟩
  have h₃ : Tables.Clears w₂.tables [] [n.id] w₃.tables := h₃ ▸
    Tables.Clears.of_records hw₂.wellFormed fun r hr => mem_records hl hr
  exact ((h₁.trans h₂).trans h₃).mono (by simp) (by simp)

/-- A class of nodes with all that is below them, in any workspace that changes of a class reach. -/
structure Downward (A : Event → Prop) (w : Workspace) (D : Node → Prop) : Prop where
  /-- Only the address counts. -/
  address : ∀ {m m'}, m.id = m'.id → m.key = m'.key → D m → D m'
  /-- What is below a node of the class belongs to it. -/
  below : ∀ {w' p c}, Reach A w w' → w'.Sound → w'.tables.node? p.id = some p → D p →
    w'.tables.node? c.id = some c → c.parent = some p.id → D c

theorem Downward.reach {D : Node → Prop} {w' : Workspace} (h : Downward A w D)
    (hr : Reach A w w') : Downward A w' D :=
  ⟨h.address, fun hr' => h.below (hr.trans hr')⟩

/-- The children of a node, of a type where one is given. -/
theorem mem_listNodes {t : Tables} (hf : t.WellFormed) {p : String} {type : Option NodeType}
    {c : Node} (h : c ∈ t.listNodes (some p) type none) :
    t.node? c.id = some c ∧ c.parent = some p ∧ ∀ τ, type = some τ → c.type = τ := by
  obtain ⟨hc, ht⟩ := List.mem_filter.mp h
  obtain ⟨hc, hp⟩ := List.mem_filter.mp hc
  refine ⟨(Tables.mem_allNodes hf).mp hc, by simpa using hp, fun τ hτ => ?_⟩
  subst hτ
  have : τ = c.type := by simpa using ht
  exact this.symm

section

variable {D : Node → Prop} {n : Node}

/-- The children of a node go with all that is below them. -/
theorem runs_deleteChildren {fuel : Nat} (hw : w.Sound) (hD : Downward A w D)
    (hn : ∀ {w' m}, Reach A w w' → w'.tables.node? n.id = some m → D m)
    (ih : ∀ {w c}, Downward A w D →
      (∀ {w' m}, Reach A w w' → w'.tables.node? c.id = some m → D m) →
      Runs A w (deleteFrom fuel c) fun _ w' => Tables.Fells w.tables c.id w'.tables) :
    Runs A w ((w.tables.listNodes (some n.id) none none).mapM (deleteFrom fuel))
      fun _ w' => Tables.Prunes w.tables n.id w'.tables := by
  refine .mapM_keep (fun c hc w₁ hw₁ hr₁ h₁ => ?_) (.refl ..)
  obtain ⟨hc, hp, -⟩ := mem_listNodes hw.wellFormed hc
  obtain ⟨p, hpn⟩ := Option.isSome_iff_exists.mp (Assoc.has_iff.mpr (hw.wellFormed.parents hc hp))
  have hid : p.id = n.id := hw.wellFormed.nodes.owned hpn
  have hDc : D c := hD.below (.refl w) hw (hid ▸ hpn) (hn (.refl w) hpn) hc (hid ▸ hp)
  refine (ih (hD.reach hr₁) fun {w' m} hr hm => ?_).weaken fun _ _ _ h => h₁.fell ⟨c, hc, hp⟩ h
  have hkey := (((Handle.of_node? hw hc).reach hr₁).reach hr).key hm
  have hid : m.id = c.id := (hr.sound hw₁).wellFormed.nodes.owned hm
  exact hD.address hid.symm hkey.symm hDc

variable (hE : ∀ (m : Node) (e : Edge), D m → e.source = m.id ∨ e.target = m.id → A (.dropEdge e))
  (hR : ∀ (m : Node) (r : GenerationRecord), D m → r.nodeId = m.id → A (.dropRecord r))
  (hN : ∀ n, D n → A (.dropNode n))
include hE hR hN

/-- The nodes of a subtree go one by one, and with them only edges and records. -/
theorem runs_deleteFrom (fuel : Nat) (hD : Downward A w D)
    (hn : ∀ {w' m}, Reach A w w' → w'.tables.node? n.id = some m → D m) :
    Runs A w (deleteFrom fuel n) fun _ w' => Tables.Fells w.tables n.id w'.tables := by
  induction fuel generalizing w n with
  | zero => exact .throw _
  | succ fuel ih =>
      refine Runs.transaction (fun hr h => hr.tables_of_quiet ▸ h) fun w₁ hw₁ ht hr₁ => ?_
      rw [← ht]
      have stored (hk : n.id ∈ Assoc.keys w₁.tables.nodes) : ∃ m : Node, m.id = n.id ∧ D m := by
        obtain ⟨m, hm⟩ := Assoc.exists_get?_of_mem_keys hk
        exact ⟨m, hw₁.wellFormed.nodes.owned hm, hn hr₁.of_quiet hm⟩
      refine (runs_detach (fun hk e he => ?_) fun hk r hr => ?_).bind fun _ w₂ hw₂ hr₂ hd => ?_
      · obtain ⟨m, hid, hD⟩ := stored hk
        exact hE m e hD (hid ▸ he)
      · obtain ⟨m, hid, hD⟩ := stored hk
        exact hR m r hD (hid ▸ hr)
      have hr₂ := hr₁.of_quiet.trans hr₂
      refine .reads rfl <| (runs_deleteChildren hw₂ (hD.reach hr₂)
        (fun hr => hn (hr₂.trans hr)) ih).bind fun counts w₃ _ hr₃ hb => ?_
      exact (runs_deleteNode fun m _ hm => hN m (hn (hr₂.trans hr₃) hm)).bind
        fun _ _ _ _ h => .pure (h ▸ hb.fells hd)

theorem runs_cascadeDelete {includingSelf : Bool} (hD : Downward A w D)
    (hn : ∀ {w' m}, Reach A w w' → w'.tables.node? n.id = some m → D m) :
    Runs A w (cascadeDelete n includingSelf) fun _ w' =>
      (includingSelf = true → Tables.Fells w.tables n.id w'.tables) ∧
        (includingSelf = false → Tables.Prunes w.tables n.id w'.tables) := by
  refine .reads rfl <| .ite (fun hs => ?_) fun hs => ?_
  · exact (runs_deleteFrom hE hR hN _ hD hn).weaken fun _ _ _ h =>
      ⟨fun _ => h, fun hf => absurd (hf.symm.trans hs) nofun⟩
  · refine Runs.transaction (fun hr h => hr.tables_of_quiet ▸ h) fun w₁ hw₁ ht hr₁ => ?_
    rw [← ht]
    refine .reads rfl <| (runs_deleteChildren hw₁ (hD.reach hr₁.of_quiet)
      (fun hr => hn (hr₁.of_quiet.trans hr)) ?_).bind fun _ _ _ _ h =>
        .pure ⟨fun hs' => absurd hs' hs, fun _ => h⟩
    exact fun hD hn => runs_deleteFrom hE hR hN _ hD hn

end

/-! ## Deletions from a class -/

section

variable {D : Node → Prop} {w' : Workspace}

/-- In a deletion no node comes. -/
theorem node?_of_drops (hr : Reach (Event.Drops D) w w') {j : String} {m : Node}
    (hm : w'.tables.node? j = some m) : w.tables.node? j = some m := by
  induction hr with
  | refl => exact hm
  | step hr he hs ih =>
      refine ih ?_
      cases hs with
      | @dropNode _ n hn _ =>
          have hm : (Tables.dropNode _ n).node? j = some m := hm
          rw [Tables.node?_dropNode] at hm
          split at hm
          · cases hm
          · exact hm
      | node | content | edge | record => exact (he.resolve_left id).elim
      | _ => exact hm

/-- A deletion that starts in a class, which has with a node all that is below it, stays in the
class. -/
theorem runs_cascadeDelete_drops {n : Node} (includingSelf : Bool)
    (haddress : ∀ {m m'}, m.id = m'.id → m.key = m'.key → D m → D m')
    (hbelow : ∀ {p c}, w.tables.node? p.id = some p → D p → w.tables.node? c.id = some c →
      c.parent = some p.id → D c)
    (hn : ∀ {m}, w.tables.node? n.id = some m → D m) :
    Runs (Event.Drops D) w (cascadeDelete n includingSelf) fun _ w' =>
      (includingSelf = true → Tables.Fells w.tables n.id w'.tables) ∧
        (includingSelf = false → Tables.Prunes w.tables n.id w'.tables) :=
  runs_cascadeDelete (fun _ _ _ _ => trivial) (fun _ _ _ _ => trivial) (fun _ hm => hm)
    ⟨haddress, fun hr _ hp hD hc hparent =>
      hbelow (node?_of_drops hr hp) hD (node?_of_drops hr hc) hparent⟩
    fun hr hm => hn (node?_of_drops hr hm)

end

end Graph

end IntentBuild
