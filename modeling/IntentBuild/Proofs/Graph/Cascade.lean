import IntentBuild.Proofs.Instance.Forgery

/-!
# Deletions are exact

A deletion takes a node, all that is below it, and what refers to any of them (`Tables.Razes`).  It goes
from the node down: its references are deleted before its children, and a node goes after its children,
so no node is refused because something still refers to it.  Within a transaction nothing of this can
fail (`Graph.ends_deleteFrom`), so a deletion as a whole fails only where the document cannot be written,
and then it has done its work all the same (`Workspace.cascade_exact`).
-/

namespace IntentBuild

open Op
open Relation (TransGen)

/-! ## Operations that do not fail -/

namespace Op

variable {α : Type} {w : Workspace}

/-- An operation ends as it runs. -/
theorem Ends.and_runs {x : Op α} {Q Q' : α → Workspace → Prop} {F : Workspace → Prop}
    (h : Ends w x Q F) (hr : Runs Event.Any w x Q') :
    Ends w x (fun a w' => Q a w' ∧ Q' a w') F := by
  intro hw
  have hend := h hw
  cases hx : x.run w with
  | ok a w' =>
      rw [hx] at hend
      exact ⟨hend.1, hend.2, (hr.ok hw hx).2⟩
  | error e w' =>
      rw [hx] at hend
      exact hend

/-- Within a transaction a removal that is not refused does not fail. -/
theorem ends_remove {r : Tables.Removal} (hd : w.graph.depth ≠ 0)
    (hr : r = .absent ∨ ∃ t, r = .done t ∧ Reach Event.Any w (w.withTables t)) :
    Ends w (do let _ ← remove r : Op Unit) (fun _ _ => True) fun _ => False := by
  intro _
  rcases hr with rfl | ⟨t, rfl, hreach⟩
  · exact ⟨.refl w, trivial⟩
  · have hcommit : (commit t).run w = .ok ⟨⟩ (w.withTables t) := by rw [commit_eq, if_neg hd]
    have hrun : (do let _ ← remove (.done t) : Op Unit).run w = .ok ⟨⟩ (w.withTables t) := by
      change ((commit t >>= fun _ => pure true) >>= fun _ => pure ⟨⟩ : Op Unit).run w = _
      rw [bind_assoc, bind_ok hcommit]
      rfl
    rw [hrun]
    exact ⟨⟨hreach, rfl⟩, trivial⟩

end Op

/-! ## What is razed -/

namespace Tables

variable {t t' t'' : Tables}

/-- What is below a node is there. -/
theorem mem_keys_of_below {p i : String} (h : TransGen t.IsParent p i) : i ∈ Assoc.keys t.nodes := by
  cases h with
  | single h => obtain ⟨n, hn, -⟩ := h; exact Assoc.mem_keys_of_get? hn
  | tail _ h => obtain ⟨n, hn, -⟩ := h; exact Assoc.mem_keys_of_get? hn

/-- No edge and no record refers to an identifier. -/
structure Bare (t : Tables) (id : String) : Prop where
  /-- No edge has it as an end. -/
  edge : ∀ {i e}, Assoc.get? i t.edges = some e → e.source ≠ id ∧ e.target ≠ id
  /-- No record belongs to it. -/
  record : ∀ {i r}, Assoc.get? i t.records = some r → r.nodeId ≠ id

/-- What is gone are some nodes with all that is below them, and exactly what refers to them. -/
structure Razes (t : Tables) (tops : List String) (gone : List String) (t' : Tables) : Prop where
  /-- The removal. -/
  clears : Clears t gone gone t'
  /-- No node is gone twice. -/
  nodup : gone.Nodup
  /-- The nodes that are gone. -/
  mem_gone : ∀ i, i ∈ gone ↔ ∃ c ∈ tops, i = c ∨ TransGen t.IsParent c i

theorem Razes.refl (t : Tables) : Razes t [] [] t :=
  ⟨.refl t, List.nodup_nil, fun i => by simp⟩

/-- After some nodes another one is razed. -/
theorem Razes.snoc {tops gone gone' : List String} {c : String} (h : Razes t tops gone t')
    (ht' : t'.WellFormed) (h' : Razes t' [c] gone' t'') (hc : c ∈ Assoc.keys t'.nodes) :
    Razes t (tops ++ [c]) (gone ++ gone') t'' where
  clears := h.clears.trans h'.clears
  nodup := by
    refine List.nodup_append.mpr ⟨h.nodup, h'.nodup, fun i hi j hj hij => ?_⟩
    subst hij
    have hkey : i ∈ Assoc.keys t'.nodes := by
      obtain ⟨d, hd, hi'⟩ := (h'.mem_gone i).mp hj
      rw [List.mem_singleton.mp hd] at hi'
      rcases hi' with rfl | hi'
      · exact hc
      · exact mem_keys_of_below hi'
    obtain ⟨m, hm⟩ := Assoc.exists_get?_of_mem_keys hkey
    exact (h.clears.node?_of_some hm).1 hi
  mem_gone i := by
    have hleft (hi : i ∉ gone) : TransGen t.IsParent c i → TransGen t'.IsParent c i := fun hci => by
      obtain ⟨m, hm⟩ := Assoc.exists_get?_of_mem_keys (mem_keys_of_below hci)
      have hnode := h.clears.node?_eq i
      rw [if_neg hi] at hnode
      exact h.clears.transGen_of_left ht' (Assoc.mem_keys_of_get? (hnode.trans hm)) hci
    rw [List.mem_append, h'.mem_gone, h.mem_gone]
    constructor
    · rintro (⟨d, hd, hdi⟩ | ⟨d, hd, hdi⟩)
      · exact ⟨d, List.mem_append_left _ hd, hdi⟩
      · exact ⟨d, List.mem_append_right _ hd, hdi.imp_right h.clears.transGen⟩
    · rintro ⟨d, hd, hdi⟩
      rcases List.mem_append.mp hd with hd | hd
      · exact .inl ⟨d, hd, hdi⟩
      · by_cases hi : i ∈ gone
        · exact .inl ((h.mem_gone i).mp hi)
        · rw [List.mem_singleton.mp hd] at hdi
          exact .inr ⟨c, .head _, hdi.imp_right (hleft hi)⟩

end Tables

/-! ## Deleting within a transaction -/

section

variable {t : Tables} {ns es rs : List String} {i id : String}

theorem Tables.edge_of_without {e : Edge} (h : Assoc.get? i (t.without ns es rs).edges = some e) :
    i ∉ es ∧ Assoc.get? i t.edges = some e := by
  rw [without, get?_sparing] at h
  split at h
  · cases h
  · exact ⟨‹_›, h⟩

theorem Tables.record_of_without {r : GenerationRecord}
    (h : Assoc.get? i (t.without ns es rs).records = some r) :
    i ∉ rs ∧ Assoc.get? i t.records = some r := by
  rw [without, get?_sparing] at h
  split at h
  · cases h
  · exact ⟨‹_›, h⟩

/-- The edges that are left after those from a node lead from others. -/
theorem Tables.source_ne (hf : t.WellFormed) {e : Edge} (h : Assoc.get? i
    (t.without [] ((t.edgesFrom id none).map Edge.id) []).edges = some e) : e.source ≠ id := by
  obtain ⟨hi, he⟩ := edge_of_without h
  obtain rfl := hf.edges.owned he
  refine fun hs => hi (List.mem_map_of_mem (List.mem_filter.mpr ⟨(mem_allEdges hf).mpr he, ?_⟩))
  simp [hs]

/-- The edges that are left after those to a node lead to others. -/
theorem Tables.target_ne (hf : t.WellFormed) {e : Edge} (h : Assoc.get? i
    (t.without [] ((t.edgesTo id none).map Edge.id) []).edges = some e) : e.target ≠ id := by
  obtain ⟨hi, he⟩ := edge_of_without h
  obtain rfl := hf.edges.owned he
  refine fun ht => hi (List.mem_map_of_mem (List.mem_filter.mpr ⟨(mem_allEdges hf).mpr he, ?_⟩))
  simp [ht]

/-- The records that are left after those of a node are of others. -/
theorem Tables.nodeId_ne (hf : t.WellFormed) {l : List GenerationRecord}
    (hl : ∀ r ∈ t.recordsOf id none, r ∈ l) {r : GenerationRecord}
    (h : Assoc.get? i (t.without [] [] (l.map GenerationRecord.id)).records = some r) :
    r.nodeId ≠ id := by
  obtain ⟨hi, hr⟩ := record_of_without h
  obtain rfl := hf.records.owned hr
  refine fun hn => hi (List.mem_map_of_mem (hl r (List.mem_filter.mpr ⟨(mem_allRecords hf).mpr hr, ?_⟩)))
  simp [hn]

end

/-- A node that nothing refers to is not refused. -/
theorem Tables.deleteNode_of_unreferenced {t : Tables} (h : t.WellFormed) {n : Node}
    (hn : t.node? n.id = some n) (hu : t.Unreferenced n.id) :
    t.deleteNode n.id = .done (t.dropNode n) := by
  have hchild : (t.allNodes.any fun c => c.parent == some n.id) = false := by
    rw [List.any_eq_false]
    intro c hc hp
    exact hu.child ((mem_allNodes h).mp hc) (beq_iff_eq.mp hp)
  have hedge : (t.allEdges.any fun e => e.source == n.id || e.target == n.id) = false := by
    rw [List.any_eq_false]
    intro e he hp
    obtain ⟨hs, ht⟩ := hu.edge ((mem_allEdges h).mp he)
    simp [hs, ht] at hp
  have hrecord : (t.allRecords.any fun r => r.nodeId == n.id) = false := by
    rw [List.any_eq_false]
    intro r hr hp
    exact hu.record ((mem_allRecords h).mp hr) (beq_iff_eq.mp hp)
  have hkey : Assoc.has n.key t.nodeIndex = true :=
    Assoc.has_iff.mpr (Assoc.mem_keys_of_get? (h.nodes.index_eq hn))
  rw [deleteNode, hn]
  simp only [hchild, hedge, hrecord, hkey, Bool.false_eq_true, if_false, if_true]
  rfl

namespace Graph

variable {w : Workspace}

theorem ends_deleteEdge (hd : w.graph.depth ≠ 0) (id : String) :
    Ends w (deleteEdge id) (fun _ _ => True) fun _ => False := by
  intro hw
  refine Ends.reads rfl (ends_remove hd ?_) hw
  cases he : Assoc.get? id w.tables.edges with
  | none => exact .inl (Tables.deleteEdge_of_none he)
  | some e =>
      obtain rfl := hw.wellFormed.edges.owned he
      exact .inr ⟨_, Tables.deleteEdge_of_get? hw.wellFormed he, .single (.inr trivial) (.dropEdge he)⟩

theorem ends_deleteRecord (hd : w.graph.depth ≠ 0) (id : String) :
    Ends w (deleteRecord id) (fun _ _ => True) fun _ => False := by
  intro hw
  refine Ends.reads rfl (ends_remove hd ?_) hw
  cases hr : Assoc.get? id w.tables.records with
  | none => exact .inl (Tables.deleteRecord_of_none hr)
  | some r =>
      obtain rfl := hw.wellFormed.records.owned hr
      exact .inr ⟨_, Tables.deleteRecord_of_get? hw.wellFormed hr,
        .single (.inr trivial) (.dropRecord hr)⟩

/-- A node that nothing refers to is deleted. -/
theorem ends_deleteNode {n : Node} (hd : w.graph.depth ≠ 0) (hn : w.tables.node? n.id = some n)
    (hu : w.tables.Unreferenced n.id) : Ends w (deleteNode n.id)
      (fun _ w' => w'.tables = w.tables.without [n.id] [] []) fun _ => False := by
  intro hw
  have hsure : Ends w (deleteNode n.id) (fun _ _ => True) fun _ => False :=
    Ends.reads rfl (ends_remove hd ?_)
  · exact (hsure.and_runs (runs_deleteNode fun _ _ _ => trivial)).weaken (fun _ _ _ h => h.2)
      (fun _ _ h => h) hw
  exact .inr ⟨_, Tables.deleteNode_of_unreferenced hw.wellFormed hn hu,
    .single (.inr trivial) (.dropNode hn hu)⟩

/-- A loop of operations that do not fail within a transaction. -/
theorem ends_forIn {β : Type} {l : List β} {x : β → Op Unit} (hd : w.graph.depth ≠ 0)
    (h : ∀ b, ∀ w' : Workspace, w'.graph.depth ≠ 0 →
      Ends w' (x b) (fun _ _ => True) fun _ => False) :
    Ends w (forIn l PUnit.unit fun b _ => x b >>= fun _ => pure (.yield ⟨⟩)) (fun _ _ => True)
      fun _ => False :=
  Ends.forIn (σ := Unit) (g := fun _ _ => ⟨⟩) (I := fun _ _ => True) (s := ⟨⟩)
    (fun b _ _ w' _ hk _ => (h b w' (hk.depth ▸ hd)).bind fun _ _ _ _ _ => .pure ⟨rfl, trivial⟩)
    trivial

/-- Records with universal times have an order. -/
theorem records_run (n : Node) (tool : Option String) (hw : w.Sound) (h : w.tables.Universal) :
    (records n tool).run w = .ok
      (Sorting.sort (fun a b => a.created.le b.created) (w.tables.recordsOf n.id tool)) w := by
  have hcreated (r : GenerationRecord) (hr : r ∈ w.tables.recordsOf n.id tool) :
      r.created.offset.isSome = true :=
    h ((Tables.mem_allRecords hw.wellFormed).mp (List.mem_filter.mp hr).1)
  change (lift (fun e => e) (oldestFirst (w.tables.recordsOf n.id tool))).run w = _
  cases hrs : w.tables.recordsOf n.id tool with
  | nil => rfl
  | cons r rest =>
      rw [hrs] at hcreated
      have hall : (rest.all fun s => r.created.comparable s.created) = true :=
        List.all_eq_true.mpr fun s hs => by
          rw [Stamp.comparable, hcreated r (.head _), hcreated s (.tail _ hs)]
          rfl
      rw [oldestFirst, hall]
      rfl

/-- A node that is detached is bare. -/
theorem ends_detach {n : Node} (hd : w.graph.depth ≠ 0) (hr : w.tables.Universal) :
    Ends w (detach n) (fun _ w' => w'.tables.Bare n.id ∧ w.tables.Clears [] [n.id] w'.tables)
      fun _ => False := by
  refine Ends.and_runs ?_ (runs_detach (fun _ _ _ => trivial) fun _ _ _ => trivial)
  intro hw
  refine Ends.reads rfl (Ends.bind ((ends_forIn hd fun e _ hd => ends_deleteEdge hd e.id).and_runs
    (runs_deleteEdges hw.wellFormed (fun e he => (mem_edgesFrom he).1) fun _ _ => trivial))
      fun _ w₁ hw₁ k₁ h₁ => ?_) hw
  have hd₁ : w₁.graph.depth ≠ 0 := k₁.depth ▸ hd
  refine .reads rfl (Ends.bind ((ends_forIn hd₁ fun e _ hd => ends_deleteEdge hd e.id).and_runs
    (runs_deleteEdges hw₁.wellFormed (fun e he => (mem_edgesTo he).1) fun _ _ => trivial))
      fun _ w₂ hw₂ k₂ h₂ => ?_)
  have hd₂ : w₂.graph.depth ≠ 0 := k₂.depth ▸ hd₁
  have hr₂ {j : String} {r : GenerationRecord} (hj : Assoc.get? j w₂.tables.records = some r) :
      Assoc.get? j w.tables.records = some r := by
    rw [h₂.2] at hj
    have hj := (Tables.record_of_without hj).2
    rw [h₁.2] at hj
    exact (Tables.record_of_without hj).2
  have hl := records_run n none hw₂ fun hj => hr (hr₂ hj)
  refine .reads hl (Ends.bind ((ends_forIn hd₂ fun r _ hd => ends_deleteRecord hd r.id).and_runs
    (runs_deleteRecords hw₂.wellFormed (fun r hr => (mem_records hl hr).1) fun _ _ => trivial))
      fun _ w₃ hw₃ _ h₃ => .pure ⟨fun {i e} he => ?_, fun {i r} hr => ?_⟩)
  · rw [h₃.2] at he
    have he := (Tables.edge_of_without he).2
    rw [h₂.2] at he
    have htarget := Tables.target_ne hw₁.wellFormed he
    have he := (Tables.edge_of_without he).2
    rw [h₁.2] at he
    exact ⟨Tables.source_ne hw.wellFormed he, htarget⟩
  · rw [h₃.2] at hr
    exact Tables.nodeId_ne hw₂.wellFormed (fun r hr => Sorting.mem_sort.mpr hr) hr

end Graph

/-! ## Subtrees -/

namespace Tables

variable {t t' : Tables}

/-- No child is below another child of the same node. -/
theorem not_below_sibling (h : t.WellFormed) {p c d : String} (hc : t.IsParent p c)
    (hd : t.IsParent p d) : ¬ TransGen t.IsParent d c := by
  intro hdc
  obtain ⟨q, hdq, n, hn, hq⟩ := TransGen.tail'_iff.mp hdc
  obtain ⟨m, hm, hp⟩ := hc
  have hqp : q = p := by
    rw [hm, Option.some.injEq] at hn
    rw [hn, hq, Option.some.injEq] at hp
    exact hp
  exact h.acyclic p (TransGen.head'_iff.mpr ⟨d, hd, hqp ▸ hdq⟩)

/-- Exactly the children of a node are listed. -/
theorem mem_children (h : t.WellFormed) {p c : String} :
    c ∈ (t.listNodes (some p) none none).map Node.id ↔ t.IsParent p c := by
  rw [List.mem_map]
  constructor
  · rintro ⟨n, hn, rfl⟩
    obtain ⟨hn, hp, -⟩ := Graph.mem_listNodes h hn
    exact ⟨n, hn, hp⟩
  · rintro ⟨n, hn, hp⟩
    have hid : n.id = c := h.nodes.owned hn
    refine ⟨n, List.mem_filter.mpr ⟨List.mem_filter.mpr
      ⟨(mem_allNodes h).mpr (hid ▸ hn), ?_⟩, rfl⟩, hid⟩
    simp [hp]

theorem nodup_children (h : t.WellFormed) (p : String) :
    ((t.listNodes (some p) none none).map Node.id).Nodup :=
  (nodup_allNodes h).sublist (List.Sublist.map _ (List.filter_sublist.trans List.filter_sublist))

/-- What is below a node is below a child or the child itself. -/
theorem below_iff (h : t.WellFormed) {p i : String} : TransGen t.IsParent p i ↔
    ∃ c ∈ (t.listNodes (some p) none none).map Node.id, i = c ∨ TransGen t.IsParent c i := by
  rw [TransGen.head'_iff]
  simp only [mem_children h, Relation.reflTransGen_iff_eq_or_transGen]

/-- The records that are left were there before. -/
theorem Clears.record_of_some {gone loose : List String} (h : Clears t gone loose t') {i : String}
    {r : GenerationRecord} (hr : Assoc.get? i t'.records = some r) :
    Assoc.get? i t.records = some r := by
  obtain ⟨es, rs, rfl, -, -⟩ := h
  exact (record_of_without hr).2

/-- The edges that are left were there before. -/
theorem Clears.edge_of_some {gone loose : List String} (h : Clears t gone loose t') {i : String}
    {e : Edge} (he : Assoc.get? i t'.edges = some e) : Assoc.get? i t.edges = some e := by
  obtain ⟨es, rs, rfl, -, -⟩ := h
  exact (edge_of_without he).2

variable {p : String} {gone : List String}

/-- The node itself is none of what is below it. -/
theorem Razes.not_mem (h : Razes t ((t.listNodes (some p) none none).map Node.id) gone t')
    (hf : t.WellFormed) : p ∉ gone := by
  intro hp
  exact hf.acyclic p ((below_iff hf).mpr ((h.mem_gone p).mp hp))

/-- A bare node whose children are razed is unreferenced. -/
theorem Razes.unreferenced (h : Razes t ((t.listNodes (some p) none none).map Node.id) gone t')
    (hf : t.WellFormed) (hb : t.Bare p) : t'.Unreferenced p where
  child {i n} hn hp := by
    obtain ⟨hi, hn⟩ := h.clears.node?_of_some hn
    exact hi ((h.mem_gone i).mpr ⟨i, (mem_children hf).mpr ⟨n, hn, hp⟩, .inl rfl⟩)
  edge he := hb.edge (h.clears.edge_of_some he)
  record hr := hb.record (h.clears.record_of_some hr)

/-- A node is razed when it is detached, its children are razed, and it is deleted. -/
theorem Razes.top {t₁ t₂ : Tables} (hd : Clears t [] [p] t₁) (hf₁ : t₁.WellFormed)
    (h : Razes t₁ ((t₁.listNodes (some p) none none).map Node.id) gone t₂) :
    Razes t [p] (p :: gone) (t₂.without [p] [] []) where
  clears := by
    have hn : Clears t₂ [p] [] (t₂.without [p] [] []) :=
      ⟨_, _, rfl, fun _ h => (nomatch h), fun _ h => nomatch h⟩
    refine ((hd.trans h.clears).trans hn).mono (fun i => ?_) fun i hi => ?_
    · simp [or_comm]
    · simpa using hi
  nodup := List.nodup_cons.mpr ⟨h.not_mem hf₁, h.nodup⟩
  mem_gone i := by
    have hbelow : TransGen t.IsParent p i ↔ TransGen t₁.IsParent p i := by
      refine ⟨fun hi => hd.transGen_of_left hf₁ ?_ hi, hd.transGen⟩
      obtain ⟨m, hm⟩ := Assoc.exists_get?_of_mem_keys (mem_keys_of_below hi)
      exact Assoc.mem_keys_of_get? ((hd.node?_eq i).trans hm)
    rw [List.mem_cons, h.mem_gone, ← below_iff hf₁, ← hbelow]
    simp

end Tables

namespace Graph

variable {w : Workspace}

/-- What a deletion below a node counts. -/
def Razed (w : Workspace) (tops : List String) (k : Nat) (w' : Workspace) : Prop :=
  ∃ gone, w.tables.Razes tops gone w'.tables ∧ k = gone.length

theorem calm_razed {tops : List String} : Calm (Razed w tops) := fun hr ⟨gone, h, hk⟩ =>
  ⟨gone, hr.tables_of_quiet ▸ h, hk⟩

/-- The children of a node are razed one after the other. -/
theorem ends_deleteChildren {fuel : Nat} {n : Node} (hd : w.graph.depth ≠ 0)
    (hu : w.tables.Universal)
    (hfit : ∀ c, w.tables.IsParent n.id c → w.tables.Fits c fuel)
    (ih : ∀ {v : Workspace} {c : Node}, v.graph.depth ≠ 0 → v.tables.Universal →
      v.tables.Fits c.id fuel → c.id ∈ Assoc.keys v.tables.nodes →
        Ends v (deleteFrom fuel c) (Razed v [c.id]) fun _ => False) :
    Ends w ((w.tables.listNodes (some n.id) none none).mapM (deleteFrom fuel))
      (fun counts w' => Razed w ((w.tables.listNodes (some n.id) none none).map Node.id)
        counts.sum w') fun _ => False := by
  intro hw
  have run (rest : List Node) : ∀ (done : List Node) (v : Workspace) (gone : List String),
      done ++ rest = w.tables.listNodes (some n.id) none none → Keeps w v → v.Sound →
        w.tables.Razes (done.map Node.id) gone v.tables →
          Ends v (rest.mapM (deleteFrom fuel)) (fun counts v' => Razed w
            ((w.tables.listNodes (some n.id) none none).map Node.id) (gone.length + counts.sum) v')
            fun _ => False := by
    induction rest with
    | nil =>
        intro done v gone hdone _ _ hrazes
        rw [List.append_nil] at hdone
        exact .pure ⟨gone, hdone ▸ hrazes, rfl⟩
    | cons c rest ihr =>
        intro done v gone hdone hk hv hrazes
        have hmem : c.id ∈ (w.tables.listNodes (some n.id) none none).map Node.id := by
          rw [← hdone]
          simp
        have hparent := (Tables.mem_children hw.wellFormed).mp hmem
        have hleft : c.id ∉ gone := by
          intro hc
          obtain ⟨d, hd, hcd⟩ := (hrazes.mem_gone _).mp hc
          rcases hcd with hcd | hcd
          · have hnodup := Tables.nodup_children hw.wellFormed n.id
            rw [← hdone, List.map_append, List.map_cons] at hnodup
            exact (List.nodup_append.mp hnodup).2.2 d hd c.id (.head _) hcd.symm
          · refine Tables.not_below_sibling hw.wellFormed hparent
              ((Tables.mem_children hw.wellFormed).mp ?_) hcd
            rw [← hdone, List.map_append]
            exact List.mem_append_left _ hd
        have hkey : c.id ∈ Assoc.keys v.tables.nodes := by
          obtain ⟨m, hm, -⟩ := hparent
          have hnode := hrazes.clears.node?_eq c.id
          rw [if_neg hleft, hm] at hnode
          exact Assoc.mem_keys_of_get? hnode
        rw [List.mapM_cons]
        refine (ih (hk.depth ▸ hd) (fun hr => hu (hrazes.clears.record_of_some hr))
          ((hfit _ hparent).clears hrazes.clears) hkey).bind fun k v' hv' hk' hrazed => ?_
        obtain ⟨gone', hrazes', rfl⟩ := hrazed
        have hsnoc := hrazes.snoc hv.wellFormed hrazes' hkey
        have hdone' : (done ++ [c]) ++ rest = w.tables.listNodes (some n.id) none none := by
          rw [List.append_assoc]
          exact hdone
        refine (ihr (done ++ [c]) v' (gone ++ gone') hdone' (hk.trans hk') hv' ?_).bind
          fun counts _ _ _ hrest => .pure ?_
        · rw [List.map_append]
          exact hsnoc
        · rwa [List.sum_cons, ← Nat.add_assoc, ← List.length_append]
  have h := run _ [] w [] rfl (.refl w) hw (.refl _)
  simp only [List.length_nil, Nat.zero_add] at h
  exact h hw

/-- Where the document could not be written, the nodes are razed all the same. -/
def RazedUnsaved (w : Workspace) (tops : List String) (w' : Workspace) : Prop :=
  w.graph.depth = 0 ∧ ¬ w'.Writable ∧ ∃ k, Razed w tops k w'

/-- A node is razed, whatever is below it. -/
theorem ends_deleteFrom (fuel : Nat) : ∀ {w : Workspace} {n : Node}, w.tables.Universal →
    w.tables.Fits n.id fuel → n.id ∈ Assoc.keys w.tables.nodes →
      Ends w (deleteFrom fuel n) (Razed w [n.id]) (RazedUnsaved w [n.id]) := by
  induction fuel with
  | zero => exact fun _ hfit _ => absurd rfl hfit.pos
  | succ fuel ih =>
      intro w n hu hfit hn hw
      refine Ends.transaction_sure (Q := Razed w [n.id]) calm_razed
        (fun w₁ hw₁ hr₁ hd₁ => ?_) hw
      have ht : w₁.tables = w.tables := hr₁.tables_of_quiet
      have hd₁ : w₁.graph.depth ≠ 0 := hd₁ ▸ Nat.succ_ne_zero _
      refine Ends.bind (ends_detach hd₁ (ht ▸ hu)) fun _ w₂ hw₂ k₂ hdetached => ?_
      obtain ⟨hbare, hcleared⟩ := hdetached
      have hd₂ : w₂.graph.depth ≠ 0 := k₂.depth ▸ hd₁
      have hfit₂ : w₂.tables.Fits n.id (fuel + 1) := (ht ▸ hfit).clears hcleared
      -- The transactions of the children are inner ones, whose ends write nothing.
      refine .reads rfl (Ends.bind (ends_deleteChildren hd₂
        (fun hr => (ht ▸ hu) (hcleared.record_of_some hr))
        (fun c hc => hfit₂.child hw₂.wellFormed hc)
        fun hd hu hfit hc => (ih hu hfit hc).weaken (fun _ _ _ h => h) fun _ _ h => hd h.1)
        fun counts w₃ hw₃ k₃ hrazed => ?_)
      obtain ⟨gone, hrazes, hcount⟩ := hrazed
      obtain ⟨m, hm⟩ := Assoc.exists_get?_of_mem_keys hn
      have hid : m.id = n.id := hw.wellFormed.nodes.owned hm
      have hm₃ : w₃.tables.node? m.id = some m := by
        rw [hrazes.clears.node?_eq, if_neg (hid ▸ hrazes.not_mem hw₂.wellFormed),
          hcleared.node?_eq, ht, hid]
        exact hm
      have hd₃ : w₃.graph.depth ≠ 0 := k₃.depth ▸ hd₂
      have hdelete := ends_deleteNode hd₃ hm₃ (hid ▸ hrazes.unreferenced hw₂.wellFormed hbare)
      rw [hid] at hdelete
      refine hdelete.bind fun _ w₄ _ _ h₄ => .pure ⟨n.id :: gone, ?_, ?_⟩
      · rw [h₄, ← ht]
        exact hrazes.top hcleared hw₂.wellFormed
      · have hsum : counts.foldl (· + ·) (1 + 0) = 1 + counts.sum := by
          rw [List.foldl_assoc, ← List.sum_eq_foldl_nat]
        rw [List.length_cons, ← hcount, Nat.add_comm]
        exact hsum

/-- What a deletion starts from: the node, or its children. -/
def cascadeTops (t : Tables) (n : Node) (includingSelf : Bool) : List String :=
  if includingSelf then [n.id] else (t.listNodes (some n.id) none none).map Node.id

/-- A deletion razes the node, or its children. -/
theorem ends_cascadeDelete {n : Node} (includingSelf : Bool) (hu : w.tables.Universal)
    (hn : n.id ∈ Assoc.keys w.tables.nodes) :
    Ends w (cascadeDelete n includingSelf) (Razed w (cascadeTops w.tables n includingSelf))
      (RazedUnsaved w (cascadeTops w.tables n includingSelf)) := by
  refine .reads (a := w.tables.nodes.length + 1) rfl ?_
  cases includingSelf with
  | true => exact ends_deleteFrom _ hu (Tables.fits_length ..) hn
  | false =>
      refine Ends.transaction_sure (Q := Razed w (cascadeTops w.tables n false)) calm_razed
        fun w₁ hw₁ hr₁ hd₁ => ?_
      have ht : w₁.tables = w.tables := hr₁.tables_of_quiet
      have hd₁ : w₁.graph.depth ≠ 0 := hd₁ ▸ Nat.succ_ne_zero _
      refine .reads rfl (Ends.bind (ends_deleteChildren hd₁ (ht ▸ hu)
        (fun c _ => ht ▸ Tables.fits_length w₁.tables c)
        fun hd hu hfit hc => (ends_deleteFrom _ hu hfit hc).weaken (fun _ _ _ h => h)
          fun _ _ h => hd h.1) fun counts w₂ _ _ hrazed => .pure ?_)
      obtain ⟨gone, hrazes, hcount⟩ := hrazed
      rw [ht] at hrazes
      exact ⟨gone, hrazes, List.sum_eq_foldl_nat.symm.trans hcount⟩

end Graph

/-! ## Deletions -/

/-- All nodes below one are deleted, and this one itself where it is included.  With them go the edges
that have a deleted node as an end, and the records of deleted nodes.  All other rows stay as they are,
in their order. -/
structure Tables.Deleted (t : Tables) (top : String) (includingSelf : Bool) (gone : List String)
    (t' : Tables) : Prop where
  /-- No node is deleted twice. -/
  nodup : gone.Nodup
  /-- The nodes that are deleted. -/
  mem_gone : ∀ i, i ∈ gone ↔ TransGen t.IsParent top i ∨ includingSelf = true ∧ i = top
  /-- The node itself is deleted exactly where it is included. -/
  mem_top : top ∈ gone ↔ includingSelf = true
  /-- The nodes that stay. -/
  nodes : t'.allNodes = t.allNodes.filter fun n => n.id ∉ gone
  /-- The edges that stay. -/
  edges : t'.allEdges = t.allEdges.filter fun e => e.source ∉ gone ∧ e.target ∉ gone
  /-- The records that stay. -/
  records : t'.allRecords = t.allRecords.filter fun r => r.nodeId ∉ gone

/-- What is razed from the node or its children is deleted. -/
theorem Tables.Razes.deleted {t t' : Tables} {n : Node} {includingSelf : Bool} {gone : List String}
    (h : t.Razes (Graph.cascadeTops t n includingSelf) gone t') (hf : t.WellFormed)
    (hf' : t'.WellFormed) : t.Deleted n.id includingSelf gone t' := by
  have hmem (i : String) : i ∈ gone ↔ TransGen t.IsParent n.id i ∨ includingSelf = true ∧ i = n.id := by
    rw [h.mem_gone]
    cases includingSelf with
    | true => simp [Graph.cascadeTops, or_comm]
    | false => simpa [Graph.cascadeTops] using (below_iff hf).symm
  refine ⟨h.nodup, hmem, ?_, ?_, ?_, ?_⟩
  · rw [hmem]
    simp [hf.acyclic n.id]
  · rw [allNodes, h.clears.nodes_eq, allNodes, List.filter_map]
    refine congrArg _ (List.filter_congr fun p hp => ?_)
    rw [← hf.nodes.owned (Assoc.get?_of_mem hf.nodes.proper hp)]
    rfl
  · rw [allEdges, h.clears.edges_eq hf hf', allEdges, List.filter_map]
    rfl
  · rw [allRecords, h.clears.records_eq hf hf', allRecords, List.filter_map]
    rfl

namespace Workspace

variable {w : Workspace}

/-- Deleting below a node deletes exactly the nodes below it, and the node itself where this is asked
for, with exactly what refers to them.  It counts the deleted nodes.  It fails only where no transaction
is open and the document cannot be written, and then it has deleted the same. -/
theorem cascade_exact (h : Lived Anything w) (i : String) {n : Node}
    (hn : n.id ∈ Assoc.keys w.tables.nodes) (includingSelf : Bool) :
    ∃ gone, ∃ w' : Workspace, w.tables.Deleted n.id includingSelf gone w'.tables ∧
      ((Graph.cascadeDelete n includingSelf).run (w.serve i) = .ok gone.length w' ∨
        w.graph.depth = 0 ∧ ¬ w'.Writable ∧
          ∃ e, (Graph.cascadeDelete n includingSelf).run (w.serve i) = .error e w') := by
  have hs := h.steady_of_anything
  have hsound : (w.serve i).Sound := hs.sound.serve i
  have hend := Graph.ends_cascadeDelete (w := w.serve i) includingSelf
    hs.universal hn hsound
  have hdeleted {w' : Workspace} {gone : List String} (hk : Keeps (w.serve i) w')
      (h : w.tables.Razes (Graph.cascadeTops w.tables n includingSelf) gone w'.tables) :
      w.tables.Deleted n.id includingSelf gone w'.tables :=
    h.deleted hs.sound.wellFormed (hk.reach.sound hsound).wellFormed
  cases hx : (Graph.cascadeDelete n includingSelf).run (w.serve i) with
  | ok k w' =>
      rw [hx] at hend
      obtain ⟨hk, gone, hrazes, rfl⟩ := hend
      exact ⟨gone, w', hdeleted hk hrazes, .inl rfl⟩
  | error e w' =>
      rw [hx] at hend
      obtain ⟨hk, hd, hwritable, -, gone, hrazes, -⟩ := hend
      exact ⟨gone, w', hdeleted hk hrazes, .inr ⟨hd, hwritable, e, rfl⟩⟩

/-- A deletion fails where a directory is in the place of the document, and where the document is not
the one that the store wrote. -/
theorem cascade_not_exact :
    (Lived Anything displaced ∧ displaced.graph.depth = 0 ∧
      ∃ n, n.id ∈ Assoc.keys displaced.tables.nodes ∧
        ∃ e w', (Graph.cascadeDelete n true).run displaced = .error e w') ∧
    (Lived Anything overwritten ∧
      ∃ w, (openGraph overwritten.graph.root "default").run overwritten = .ok ⟨⟩ w ∧
        ∃ n ∈ w.tables.allNodes, ∃ e w', (Graph.cascadeDelete n true).run w = .error e w') := by
  constructor
  · have hsetup : Lived Anything ((Request.setup "demo" (.ofText "/work/store/graph.json")).op.after
        (beginTransaction.after fresh)) :=
      lived_fresh.began.asked_self (.request (.setup "demo" (.ofText "/work/store/graph.json")) trivial)
    obtain ⟨hopen, hdepth, htest⟩ :
        ((Request.setup "demo" (.ofText "/work/store/graph.json")).op.after
          (beginTransaction.after fresh)).graph.depth ≠ 0 ∧
        displaced.graph.depth = 0 ∧
        displaced.withFirst (fun n => failsIn (Graph.cascadeDelete n true) displaced) = true := by
      decide +kernel
    have hlived : Lived Anything displaced := hsetup.ended hopen
    obtain ⟨n, hn, hfails⟩ := withFirst_eq_true hlived.steady_of_anything.sound htest
    exact ⟨hlived, hdepth, n, hn, failsIn_eq_true hfails⟩
  · obtain ⟨w, hrun, n, hn, -, -, hfails⟩ := forged
    exact ⟨lived_overwritten, w, hrun, n, hn, hfails⟩

/-- A project is deleted with its three roots. -/
theorem cascade_exact_settled : ∃ n gone, ∃ w' : Workspace,
    n.id ∈ Assoc.keys settled.tables.nodes ∧ settled.tables.Deleted n.id true gone w'.tables ∧
      (Graph.cascadeDelete n true).run (settled.serve "default") = .ok 4 w' ∧ gone.length = 4 := by
  have htest : settled.withFirst (fun n => (Graph.cascadeDelete n true).gives (settled.serve "default")
      fun count _ => count == 4) = true := by decide +kernel
  obtain ⟨n, hn, hgives⟩ := withFirst_eq_true lived_settled.steady_of_anything.sound htest
  obtain ⟨count, w₁, hrun, hcount⟩ := gives_eq_true.mp hgives
  obtain ⟨gone, w', hdeleted, hw'⟩ := cascade_exact lived_settled "default" hn true
  rw [hrun] at hw'
  rcases hw' with hw' | ⟨-, -, e, hw'⟩
  · injection hw' with hk hw
    subst hk hw
    exact ⟨n, gone, w₁, hn, hdeleted, (beq_iff_eq.mp hcount) ▸ hrun, beq_iff_eq.mp hcount⟩
  · cases hw'

end Workspace

end IntentBuild
