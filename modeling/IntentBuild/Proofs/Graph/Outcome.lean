import IntentBuild.Proofs.Graph.Changes
import IntentBuild.Proofs.Json.Canonical
import IntentBuild.Proofs.Operation.Outcome
import IntentBuild.Proofs.Operation.Writing

/-!
# When the operations on the graph fail

Given what it asks for, an operation on nodes or edges fails only when the document of the graph
cannot be written, and then the tables are as they are after a success.  Within a transaction it
does not fail at all.
-/

namespace IntentBuild.Graph

open Op
open Assoc (keys)

variable {w : Workspace}

/-! ## Nodes -/

/-- Tables with something new are put in place after its identifier was taken. -/
theorem insertDrawn_ended {α : Type} {e : Event} {s : Supply} {t : Tables} {a : α}
    (he : Happens e w ({ w with supply := s }.withTables t)) (hw : w.Sound) :
    Ended w (fun b w' => b = a ∧ w'.tables = t) (fun w' => w.graph.depth = 0 ∧ w'.tables = t)
      ((lift .graph (.ok t) >>= fun t => commit t >>= fun _ => pure a : Op α).run
        { w with supply := s }) := by
  have hc := commit_ended (w := { w with supply := s }) ⟨.single (.inr trivial) he, rfl⟩ hw
  rw [bind_ok (lift_ok ..)]
  cases hct : (commit t).run { w with supply := s } with
  | ok _ w' =>
      rw [hct] at hc
      rw [bind_ok hct]
      exact ⟨hc.1, rfl, hc.2⟩
  | error e w' =>
      rw [hct] at hc
      rw [bind_error hct]
      exact hc

/-- A drafted node with a new key and an existing parent is inserted. -/
theorem ends_insertDraft {d : Draft Node}
    (hd : Supply.Takes w.supply (d.run w.supply).2 (d.run w.supply).1.id)
    (hj : Json.ExactMembers (d.run w.supply).1.members) (hn : (d.run w.supply).1.name ≠ "")
    (hk : (d.run w.supply).1.key ∉ keys w.tables.nodeIndex)
    (hp : ∀ p, (d.run w.supply).1.parent = some p → p ∈ keys w.tables.nodes) :
    Ends w (complete d >>= insertNode)
      (fun n w' => n = (d.run w.supply).1 ∧ w.tables.insertNode n = .ok w'.tables)
      fun w' => w.graph.depth = 0 ∧ w.tables.insertNode (d.run w.supply).1 = .ok w'.tables := by
  intro hw
  have hi : (d.run w.supply).1.id ∉ keys w.tables.nodes := fun h => hd.fresh (hw.spent (.inl h))
  have ht := Tables.insertNode_of hi hk hp
  have hrun : (complete d).run w = .ok (d.run w.supply).1 { w with supply := (d.run w.supply).2 } :=
    rfl
  rw [bind_ok hrun]
  change Ended w _ _ ((lift .graph (w.tables.insertNode (d.run w.supply).1) >>= fun t =>
    commit t >>= fun _ => pure (d.run w.supply).1 : Op Node).run _)
  rw [ht]
  refine (insertDrawn_ended (.node ht hd hj hn) hw).weaken ?_ ?_
  · rintro n w' - ⟨rfl, h⟩
    exact ⟨rfl, by rw [h]; exact ht⟩
  · rintro w' - ⟨h0, h⟩
    exact ⟨h0, by rw [h]⟩

theorem ends_getOrCreate {parent : Option Node} {type : NodeType} {name : String}
    {json : Option Members} (hp : ∀ p, parent = some p → p.id ∈ keys w.tables.nodes)
    (hn : name ≠ "") (hj : Json.ExactMembers (json.getD [])) :
    Ends w (getOrCreate parent type name json)
      (fun n w' =>
        Found w.tables ⟨parent.map Node.id, w.graph.instanceId, type, name⟩ json n w'.tables)
      fun w' => w.graph.depth = 0 ∧ ¬ w'.Writable ∧ ∃ n,
        Found w.tables ⟨parent.map Node.id, w.graph.instanceId, type, name⟩ json n w'.tables := by
  refine Ends.transaction_sure (fun hr h => hr.tables_of_quiet ▸ h) fun w₁ hw₁ hr hd => ?_
  rw [← hr.tables_of_quiet] at hp ⊢
  rw [← hr.instanceId_eq]
  refine .reads (a := w₁.tables.findNode? ⟨parent.map Node.id, w₁.graph.instanceId, type, name⟩)
    rfl ?_
  cases hf : w₁.tables.findNode? ⟨parent.map Node.id, w₁.graph.instanceId, type, name⟩ with
  | some n => exact .pure (.old hf)
  | none =>
      obtain ⟨hash, hh⟩ := membersHash_eq_ok.mpr hj
      refine .reads (a := hash) (by rw [hh]; rfl) <|
        .reads (a := ()) (by rw [checkName_eq_ok.mpr hn]; rfl) <| .reads rfl ?_
      refine (ends_insertDraft (takes_draftNode (by rfl) _) ?_ ?_ ?_ ?_).weaken ?_ ?_
      · exact hj
      · exact hn
      · exact Tables.not_mem_of_findNode?_eq_none hw₁.wellFormed hf
      · intro p h
        obtain ⟨q, hq, rfl⟩ := Option.map_eq_some_iff.mp h
        exact hp q hq
      · rintro n w' - ⟨rfl, h⟩
        exact .new h rfl rfl rfl rfl
      · rintro w' - ⟨h0, -⟩
        have h0 : w₁.graph.depth = 0 := h0
        omega

/-- In a transaction a drafted node is inserted, and no file changes. -/
theorem insertDraft_run {d : Draft Node} (hw : w.Sound) (hd : w.graph.depth ≠ 0)
    (ht : Supply.Takes w.supply (d.run w.supply).2 (d.run w.supply).1.id)
    (hk : (d.run w.supply).1.key ∉ keys w.tables.nodeIndex)
    (hp : ∀ p, (d.run w.supply).1.parent = some p → p ∈ keys w.tables.nodes) :
    ∃ n w', (complete d >>= insertNode).run w = .ok n w' ∧ w'.files = w.files ∧
      w'.graph.root = w.graph.root := by
  have hi : (d.run w.supply).1.id ∉ keys w.tables.nodes := fun h => ht.fresh (hw.spent (.inl h))
  have hinsert := Tables.insertNode_of hi hk hp
  have hrun : (complete d).run w = .ok (d.run w.supply).1 { w with supply := (d.run w.supply).2 } :=
    rfl
  have htables : Op.tables.run { w with supply := (d.run w.supply).2 } =
      .ok w.tables { w with supply := (d.run w.supply).2 } := rfl
  rw [bind_ok hrun, insertNode, bind_ok htables, hinsert, bind_ok (lift_ok ..)]
  have hcommit := commit_eq (w.tables.setNode (d.run w.supply).1)
    { w with supply := (d.run w.supply).2 }
  rw [if_neg hd] at hcommit
  exact ⟨_, _, bind_ok hcommit, rfl, rfl⟩

/-- A node is given where the document can be written. -/
theorem getOrCreate_run {parent : Option Node} {type : NodeType} {name : String}
    {json : Option Members} (hw : w.Sound)
    (hp : ∀ p, parent = some p → p.id ∈ keys w.tables.nodes) (hn : name ≠ "")
    (hj : Json.ExactMembers (json.getD []))
    (hs : w.graph.unsaved = true ∨
      w.tables.findNode? ⟨parent.map Node.id, w.graph.instanceId, type, name⟩ = none → w.Writable) :
    ∃ n w', (getOrCreate parent type name json).run w = .ok n w' := by
  have hw₁ : (w.atDepth (w.graph.depth + 1)).Sound := ⟨hw.wellFormed, hw.spent, hw.exact⟩
  have hchild : (child? parent type name).run (w.atDepth (w.graph.depth + 1)) =
      .ok (w.tables.findNode? ⟨parent.map Node.id, w.graph.instanceId, type, name⟩)
        (w.atDepth (w.graph.depth + 1)) := rfl
  unfold getOrCreate
  cases hf : w.tables.findNode? ⟨parent.map Node.id, w.graph.instanceId, type, name⟩ with
  | some n =>
      rw [hf] at hchild
      have hwritable : w.graph.unsaved = true → (w.atDepth (w.graph.depth + 1)).Writable :=
        fun hu => (hs (.inl hu)).congr rfl rfl
      exact ⟨n, transaction_run (by rw [bind_ok hchild]; rfl) hwritable⟩
  | none =>
      rw [hf] at hchild
      obtain ⟨hash, hh⟩ := membersHash_eq_ok.mpr hj
      obtain ⟨n, w₁, hinsert, hfiles, hroot⟩ :=
        insertDraft_run hw₁ (Nat.succ_ne_zero _) (takes_draftNode (f := ⟨none, parent.map Node.id,
          w.graph.instanceId, .active, type, name, none, none, json, hash, none, none, none⟩) rfl _)
          (Tables.not_mem_of_findNode?_eq_none hw.wellFormed hf) fun p h => by
            obtain ⟨q, hq, rfl⟩ := Option.map_eq_some_iff.mp h
            exact hp q hq
      have hwritable : w₁.graph.unsaved = true → w₁.Writable := fun _ =>
        (hs (.inr hf)).congr hfiles hroot
      refine ⟨n, transaction_run ?_ hwritable⟩
      rw [bind_ok hchild, hh, bind_ok (lift_ok ..), checkName_eq_ok.mpr hn, bind_ok (lift_ok ..)]
      exact hinsert

/-- A node that is there is given, and nothing changes where nothing is left to write. -/
theorem getOrCreate_old {parent : Option Node} {type : NodeType} {name : String}
    {json : Option Members} {n : Node}
    (hn : w.tables.findNode? ⟨parent.map Node.id, w.graph.instanceId, type, name⟩ = some n)
    (hs : w.graph.depth = 0 → w.graph.unsaved = false) :
    (getOrCreate parent type name json).run w = .ok n w := by
  have hchild : (child? parent type name).run (w.atDepth (w.graph.depth + 1)) =
      .ok (some n) (w.atDepth (w.graph.depth + 1)) := congrArg (EStateM.Result.ok · _) hn
  have hend : endTransaction.run (w.atDepth (w.graph.depth + 1)) = .ok ⟨⟩ w := by
    rw [endTransaction_eq, if_neg]
    · rfl
    · rintro ⟨hd, hu⟩
      have hu : w.graph.unsaved = true := hu
      rw [hs hd] at hu
      cases hu
  unfold getOrCreate
  rw [transaction_eq, bind_ok hchild]
  simp only [EStateM.run_pure, hend]

/-- A second call gives the same node and changes nothing at all. -/
theorem getOrCreate_again {parent : Option Node} {type : NodeType} {name : String}
    {json : Option Members} {n : Node} {w' : Workspace} (hw : w.Sound)
    (h : (getOrCreate parent type name json).run w = .ok n w') :
    (getOrCreate parent type name json).run w' = .ok n w' := by
  obtain ⟨hr, hf⟩ := (runs_getOrCreate (A := Event.Any) fun _ _ _ _ => trivial).ok hw h
  refine getOrCreate_old ?_ (unsaved_of_transaction h)
  rw [hr.instanceId_eq]
  exact (Tables.findNode?_eq_some (hr.sound hw).wellFormed).mpr (hf.node? hw.wellFormed)

/-! ## Content -/

theorem require_run {id : String} {n : Node} (h : w.tables.node? id = some n) :
    (require id).run w = .ok n w := by
  have hfind : (find? id).run w = .ok (some n) w := congrArg (EStateM.Result.ok · w) h
  rw [require, bind_ok hfind]
  rfl

/-- A node that keeps its address is put in place, also when the graph cannot be written. -/
theorem ends_updateNode {n old : Node} (ho : w.tables.node? n.id = some old)
    (hk : n.key = old.key) (hj : Json.ExactMembers n.members) :
    Ends w (updateNode n)
      (fun n' w' => (∃ u, n' = { n with updated := u }) ∧ w'.tables = w.tables.putNode n')
      fun w' => w.graph.depth = 0 ∧ ∃ u, w'.tables = w.tables.putNode { n with updated := u } := by
  refine .reads (a := w.tables) rfl ?_
  rw [ho]
  intro hw
  generalize hd : (Draft.orNow none : Draft Stamp).run w.supply = d
  have hw₁ : (complete (Draft.orNow none)).run w = .ok d.1 { w with supply := d.2 } := by
    rw [← hd]; rfl
  have hs : w.supply.Le d.2 := by rw [← hd]; exact Supply.le_orNow none _
  have hq : Keeps w { w with supply := d.2 } :=
    .of_quiet (e := .supply) trivial (.supply w hs) rfl
  rw [bind_ok hw₁]
  refine Ended.trans ?_ hq
  refine Ends.reads rfl ?_ (hq.reach.sound hw)
  rw [show Workspace.graph _ = w.graph from rfl,
    Tables.updateNode_of_key_eq (n := { n with updated := d.1 }) ho hk]
  refine Ends.bind (Q := fun _ w' => w'.tables = w.tables.putNode { n with updated := d.1 })
    (Ends.bind (Q := fun _ w' => w'.tables = w.tables.putNode { n with updated := d.1 })
      (fun hw => ?_) fun _ _ _ _ h => .pure h) fun _ _ _ _ h => .pure ⟨⟨d.1, rfl⟩, h⟩
  have hc : Happens (.content old { n with updated := d.1 }) { w with supply := d.2 } _ :=
    .content (w := { w with supply := d.2 }) ho hk hj
  exact (commit_ended ⟨.single (.inr trivial) hc, rfl⟩ hw).weaken (fun _ _ _ h => h)
    fun w' _ h => ⟨h.1, d.1, h.2⟩

/-- Outside a transaction, a node that was put in place has been written. -/
theorem unsaved_of_updateNode {n n' : Node} {w' : Workspace} (h : (updateNode n).run w = .ok n' w')
    (hd : w'.graph.depth = 0) : w'.graph.unsaved = false := by
  have htables : Op.tables.run w = .ok w.tables w := rfl
  rw [updateNode, bind_ok htables] at h
  cases ho : w.tables.node? n.id with
  | none => rw [ho] at h; cases h
  | some old =>
      rw [ho] at h
      obtain ⟨u, w₁, -, h₁⟩ := bind_eq_ok.mp h
      obtain ⟨t, w₂, -, h₂⟩ := bind_eq_ok.mp h₁
      obtain ⟨b, w₃, hremove, h₃⟩ := bind_eq_ok.mp h₂
      cases h₃
      generalize hr : t.updateNode { n with updated := u } = r at hremove
      cases r with
      | absent =>
          unfold Tables.updateNode at hr
          repeat' split at hr
          all_goals cases hr
      | done t' =>
          obtain ⟨v, w₄, hcommit, h₄⟩ := bind_eq_ok.mp hremove
          cases h₄
          exact unsaved_of_commit hcommit hd
      | noKey t' =>
          obtain ⟨v, w₄, -, h₄⟩ := bind_eq_ok.mp hremove
          cases h₄
      | refused f => cases hremove

theorem unsaved_of_setContent {n n' : Node} {content : Change String} {json : Change Members}
    {stamp : Change Stamp} {w' : Workspace} (h : (setContent n content json stamp).run w = .ok n' w')
    (hd : w'.graph.depth = 0) : w'.graph.unsaved = false := by
  obtain ⟨hash, w₁, -, h₁⟩ := bind_eq_ok.mp h
  obtain ⟨current, w₂, -, h₂⟩ := bind_eq_ok.mp h₁
  exact unsaved_of_updateNode h₂ hd

theorem ends_setContent {n old : Node} {content : Change String} {json : Change Members}
    {stamp : Change Stamp} (ho : w.tables.node? n.id = some old)
    (hj : Json.ExactMembers (json.value?.getD [])) :
    Ends w (setContent n content json stamp)
      (fun n' w' => Revised content json stamp old n' ∧ w'.tables = w.tables.putNode n')
      fun w' => w.graph.depth = 0 ∧ ∃ n',
        Revised content json stamp old n' ∧ w'.tables = w.tables.putNode n' := by
  intro hw
  obtain ⟨hash, hh⟩ := membersHash_eq_ok.mpr hj
  refine Ends.reads (a := hash) (by rw [hh]; rfl) (.reads (require_run ho) ?_) hw
  have hid : old.id = n.id := hw.wellFormed.nodes.owned ho
  have hr (u : Stamp) : Revised content json stamp old _ := revised_put hh old u
  have hkey : (putStamp (putJson (putContent old content) hash json) stamp).key = old.key :=
    (hr old.updated).key
  refine (ends_updateNode ?_ hkey ((hr old.updated).exact (hw.exact ho))).weaken ?_ ?_
  · rw [(hr old.updated).id, hid]; exact ho
  · rintro n' w' - ⟨⟨u, rfl⟩, ht⟩
    exact ⟨hr u, ht⟩
  · rintro w' - ⟨h0, u, ht⟩
    exact ⟨h0, _, hr u, ht⟩

/-! ## Records -/

/-- The record with a key is found if there is one. -/
theorem findRecord?_run (hw : w.Sound) (k : RecordKey) :
    ∃ o, (findRecord? k).run w = .ok o w ∧
      ∀ r, o = some r ↔ Assoc.get? r.id w.tables.records = some r ∧ r.key = k := by
  change ∃ o, (entryOf (Assoc.get? k w.tables.recordIndex) w.tables.records).run w = .ok o w ∧ _
  cases hi : Assoc.get? k w.tables.recordIndex with
  | none =>
      refine ⟨none, rfl, fun r => ⟨fun h => (nomatch h), ?_⟩⟩
      rintro ⟨hr, rfl⟩
      rw [hw.wellFormed.records.index_eq hr] at hi
      cases hi
  | some i =>
      obtain ⟨r, hr, hk⟩ := hw.wellFormed.records.inverse.mp hi
      have hid := hw.wellFormed.records.owned hr
      refine ⟨some r, by rw [entryOf, hr]; rfl, fun q => ⟨fun hq => ?_, fun ⟨hq, hqk⟩ => ?_⟩⟩
      · cases hq
        exact ⟨hid.symm ▸ hr, hk⟩
      · have hsame : i = q.id := hw.wellFormed.records.unique hr hq (hk.trans hqk.symm)
        exact (hsame ▸ hr).symm.trans hq

/-! ## Edges -/

/-- The search for an edge gives an answer. -/
theorem findEdge?_run (hw : w.Sound) (k : EdgeKey) : ∃ e, (findEdge? k).run w = .ok e w := by
  change ∃ e, (entryOf (Assoc.get? k w.tables.edgeIndex) w.tables.edges).run w = .ok e w
  cases hi : Assoc.get? k w.tables.edgeIndex with
  | none => exact ⟨none, rfl⟩
  | some i =>
      obtain ⟨e, he, -⟩ := hw.wellFormed.edges.inverse.mp hi
      exact ⟨some e, by rw [entryOf, he]; rfl⟩

theorem ends_link {source target : Node} {type : EdgeType} {name : String}
    (hs : source.id ∈ keys w.tables.nodes) (ht : target.id ∈ keys w.tables.nodes) :
    Ends w (link source target type name)
      (fun e w' => e.key = ⟨source.id, target.id, type, name⟩ ∧ Linked w.tables e w'.tables)
      fun w' => w.graph.depth = 0 ∧ ∃ e : Edge,
        e.key = ⟨source.id, target.id, type, name⟩ ∧ Linked w.tables e w'.tables := by
  intro hw
  obtain ⟨found, hf⟩ := findEdge?_run hw ⟨source.id, target.id, type, name⟩
  have hfound := findEdge?_eq_ok hw hf
  refine Ends.reads hf ?_ hw
  cases found with
  | some e =>
      obtain ⟨he, hk⟩ := hfound.1 e rfl
      exact .pure ⟨hk, .old he⟩
  | none =>
      have hd := takes_draftEdge source.id target.id type name w.supply
      generalize hdr : (Edge.draft none source.id target.id type name none).run w.supply = d at hd
      have hkey : d.1.key = ⟨source.id, target.id, type, name⟩ := by rw [← hdr]; rfl
      have hw₁ : (complete (Edge.draft none source.id target.id type name none)).run w =
          .ok d.1 { w with supply := d.2 } := by rw [← hdr]; rfl
      have hi : w.tables.insertEdge d.1 = .ok (w.tables.setEdge d.1) :=
        Tables.insertEdge_of (by rw [← hdr]; exact hs) (by rw [← hdr]; exact ht)
          (hkey ▸ hfound.2 rfl)
      have hfresh : d.1.id ∉ keys w.tables.edges := fun hm => hd.fresh (hw.spent (.inr (.inl hm)))
      intro hw
      rw [bind_ok hw₁]
      change Ended w _ _ ((lift .graph (w.tables.insertEdge d.1) >>= fun t =>
        commit t >>= fun _ => pure d.1 : Op Edge).run _)
      rw [hi]
      refine (insertDrawn_ended (.edge hi hd) hw).weaken ?_ ?_
      · rintro e w' - ⟨rfl, h⟩
        exact ⟨hkey, .new (by rw [h]; exact hi) hfresh⟩
      · rintro w' - ⟨h0, h⟩
        exact ⟨h0, d.1, hkey, .new (by rw [h]; exact hi) hfresh⟩

theorem ends_unlink {source target : Node} {type : EdgeType} {name : String} :
    Ends w (unlink source target type name)
      (fun _ w' =>
        ((⟨source.id, target.id, type, name⟩ : EdgeKey) ∉ keys w.tables.edgeIndex ∧
          w'.tables = w.tables) ∨
        ∃ e, Assoc.get? e.id w.tables.edges = some e ∧
          e.key = ⟨source.id, target.id, type, name⟩ ∧ w'.tables = w.tables.without [] [e.id] [])
      fun w' => w.graph.depth = 0 ∧ ∃ e, Assoc.get? e.id w.tables.edges = some e ∧
          e.key = ⟨source.id, target.id, type, name⟩ ∧
          w'.tables = w.tables.without [] [e.id] [] := by
  intro hw
  obtain ⟨found, hf⟩ := findEdge?_run hw ⟨source.id, target.id, type, name⟩
  have hfound := findEdge?_eq_ok hw hf
  refine Ends.reads hf ?_ hw
  cases found with
  | none => exact .pure (.inl ⟨hfound.2 rfl, rfl⟩)
  | some e =>
      obtain ⟨he, hk⟩ := hfound.1 e rfl
      have ht := Tables.dropEdge_eq_without hw.wellFormed he
      refine .bind (Q := fun _ w' => w'.tables = w.tables.without [] [e.id] [])
        (.reads (a := w.tables) rfl ?_) fun _ _ _ _ h => .pure (.inr ⟨e, he, hk, h⟩)
      rw [Tables.deleteEdge_of_get? hw.wellFormed he]
      refine Ends.bind (Q := fun _ w' => w'.tables = w.tables.without [] [e.id] []) ?_
        fun _ _ _ _ h => .pure h
      refine Ends.bind (Q := fun _ w' => w'.tables = w.tables.without [] [e.id] []) (fun hw => ?_)
        fun _ _ _ _ h => .pure h
      refine (commit_ended ⟨.single (.inr trivial) (.dropEdge he), rfl⟩ hw).weaken
        (fun _ _ _ h => h.trans ht) fun w' _ h => ⟨h.1, e, he, hk, h.2.trans ht⟩

end IntentBuild.Graph
