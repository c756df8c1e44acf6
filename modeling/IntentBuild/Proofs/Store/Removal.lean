import IntentBuild.Proofs.Store.WellFormed

/-!
# Removing rows

`Tables.without ns es rs` is the tables without the nodes, edges and records of some identifiers.
All other rows keep their values and their order.  In well-formed tables every deletion is such a
removal, and removals add up (`without_without`).

`Clears t ns ns t'` says that the nodes `ns` are gone, and with them only edges and records that refer
to them.

What is below a node fits into fewer steps than there are nodes (`fits_length`), and what is below a
child of the node into one step less (`Fits.child`).
-/

namespace IntentBuild.Tables

open Assoc (keys)

/-- The tables without some nodes, edges and records. -/
def without (t : Tables) (ns es rs : List String) : Tables where
  nodes := sparing Prod.fst ns t.nodes
  nodeIndex := sparing Prod.snd ns t.nodeIndex
  edges := sparing Prod.fst es t.edges
  edgeIndex := sparing Prod.snd es t.edgeIndex
  records := sparing Prod.fst rs t.records
  recordIndex := sparing Prod.snd rs t.recordIndex

variable {t : Tables} {ns es rs : List String}

theorem without_nil (t : Tables) : t.without [] [] [] = t := by
  simp only [without, sparing_nil]

theorem without_without (t : Tables) (ns es rs ns' es' rs' : List String) :
    (t.without ns es rs).without ns' es' rs' = t.without (ns ++ ns') (es ++ es') (rs ++ rs') := by
  simp only [without, sparing_sparing]

theorem get?_sparing {α : Type} (ids : List String) (i : String) (m : List (String × α)) :
    Assoc.get? i (sparing Prod.fst ids m) = if i ∈ ids then none else Assoc.get? i m := by
  rw [sparing, Assoc.get?_filter_key fun i => i ∉ ids]
  by_cases h : i ∈ ids <;> simp [h]

theorem node?_without (i : String) :
    (t.without ns es rs).node? i = if i ∈ ns then none else t.node? i := get?_sparing ..

/-! ## Deletions -/

theorem dropNode_eq_without (hf : t.WellFormed) {n : Node} (hn : t.node? n.id = some n) :
    t.dropNode n = t.without [n.id] [] [] := by
  rw [dropNode, hf.nodes.erase_key hn]
  simp only [without, sparing_nil, erase_eq_sparing]

theorem dropEdge_eq_without (hf : t.WellFormed) {e : Edge}
    (he : Assoc.get? e.id t.edges = some e) : t.dropEdge e = t.without [] [e.id] [] := by
  rw [dropEdge, hf.edges.erase_key he]
  simp only [without, sparing_nil, erase_eq_sparing]

theorem dropRecord_eq_without (hf : t.WellFormed) {r : GenerationRecord}
    (hr : Assoc.get? r.id t.records = some r) : t.dropRecord r = t.without [] [] [r.id] := by
  rw [dropRecord, hf.records.erase_key hr]
  simp only [without, sparing_nil, erase_eq_sparing]

theorem without_node_of_none (hf : t.WellFormed) {id : String} (h : t.node? id = none) :
    t.without [id] [] [] = t := by
  obtain ⟨h, hi⟩ := hf.nodes.sparing_absent h
  simp only [without, sparing_nil, h, hi]

theorem without_edge_of_none (hf : t.WellFormed) {id : String}
    (h : Assoc.get? id t.edges = none) : t.without [] [id] [] = t := by
  obtain ⟨h, hi⟩ := hf.edges.sparing_absent h
  simp only [without, sparing_nil, h, hi]

theorem without_record_of_none (hf : t.WellFormed) {id : String}
    (h : Assoc.get? id t.records = none) : t.without [] [] [id] = t := by
  obtain ⟨h, hi⟩ := hf.records.sparing_absent h
  simp only [without, sparing_nil, h, hi]

/-! ## Clearing -/

/-- Some nodes are gone, and with them only edges and records that refer to loose identifiers. -/
structure Clears (t : Tables) (gone loose : List String) (t' : Tables) : Prop where
  /-- Rows were removed, and the edges and records among them refer to loose identifiers. -/
  removal : ∃ es rs, t' = t.without gone es rs ∧
    (∀ i ∈ es, ∀ e, Assoc.get? i t.edges = some e → e.source ∈ loose ∨ e.target ∈ loose) ∧
    ∀ i ∈ rs, ∀ r, Assoc.get? i t.records = some r → r.nodeId ∈ loose

namespace Clears

variable {t' t'' : Tables} {gone loose gone' loose' : List String}

theorem refl (t : Tables) : Clears t [] [] t :=
  ⟨[], [], (without_nil t).symm, fun _ h => (nomatch h), fun _ h => (nomatch h)⟩

theorem trans (h : Clears t gone loose t') (h' : Clears t' gone' loose' t'') :
    Clears t (gone ++ gone') (loose ++ loose') t'' := by
  obtain ⟨es, rs, rfl, he, hr⟩ := h
  obtain ⟨es', rs', rfl, he', hr'⟩ := h'
  refine ⟨es ++ es', rs ++ rs', without_without .., fun i hi e hg => ?_, fun i hi r hg => ?_⟩
  · by_cases hmem : i ∈ es
    · exact (he i hmem e hg).imp (List.mem_append_left _) (List.mem_append_left _)
    · have hi : i ∈ es' := (List.mem_append.mp hi).resolve_left hmem
      refine (he' i hi e ?_).imp (List.mem_append_right _) (List.mem_append_right _)
      rw [without, get?_sparing, if_neg hmem, hg]
  · by_cases hmem : i ∈ rs
    · exact List.mem_append_left _ (hr i hmem r hg)
    · have hi : i ∈ rs' := (List.mem_append.mp hi).resolve_left hmem
      refine List.mem_append_right _ (hr' i hi r ?_)
      rw [without, get?_sparing, if_neg hmem, hg]

/-- Edges at an identifier are removed. -/
theorem of_edges (hf : t.WellFormed) {id : String} {l : List Edge}
    (hl : ∀ e ∈ l, e ∈ t.allEdges ∧ (e.source = id ∨ e.target = id)) :
    Clears t [] [id] (t.without [] (l.map Edge.id) []) := by
  refine ⟨_, _, rfl, fun i hi e he => ?_, fun _ h => nomatch h⟩
  obtain ⟨e', hmem, rfl⟩ := List.mem_map.mp hi
  obtain ⟨hmem, hid⟩ := hl e' hmem
  rw [(mem_allEdges hf).mp hmem, Option.some.injEq] at he
  simpa [he] using hid

/-- Records of an identifier are removed. -/
theorem of_records (hf : t.WellFormed) {id : String} {l : List GenerationRecord}
    (hl : ∀ r ∈ l, r ∈ t.allRecords ∧ r.nodeId = id) :
    Clears t [] [id] (t.without [] [] (l.map GenerationRecord.id)) := by
  refine ⟨_, _, rfl, fun _ h => (nomatch h), fun i hi r hr => ?_⟩
  obtain ⟨r', hmem, rfl⟩ := List.mem_map.mp hi
  obtain ⟨hmem, hid⟩ := hl r' hmem
  rw [(mem_allRecords hf).mp hmem, Option.some.injEq] at hr
  simpa [hr] using hid

/-- More may be loose, and the order of what is gone does not count. -/
theorem mono (h : Clears t gone loose t') (hg : ∀ i, i ∈ gone ↔ i ∈ gone')
    (hl : ∀ i ∈ loose, i ∈ loose') : Clears t gone' loose' t' := by
  obtain ⟨es, rs, rfl, he, hr⟩ := h
  refine ⟨es, rs, by simp only [without, sparing, hg], fun i hi e h => ?_,
    fun i hi r h => hl _ (hr i hi r h)⟩
  exact (he i hi e h).imp (hl _) (hl _)

theorem node?_eq (h : Clears t gone loose t') (i : String) :
    t'.node? i = if i ∈ gone then none else t.node? i := by
  obtain ⟨_, _, rfl, -, -⟩ := h
  exact node?_without i

theorem node?_of_some (h : Clears t gone loose t') {i : String} {n : Node}
    (hn : t'.node? i = some n) : i ∉ gone ∧ t.node? i = some n := by
  rw [h.node?_eq] at hn
  split at hn
  · cases hn
  · exact ⟨‹_›, hn⟩

/-- What is below a node after nodes are gone was below it before. -/
theorem transGen (h : Clears t gone loose t') {p i : String}
    (hp : Relation.TransGen t'.IsParent p i) : Relation.TransGen t.IsParent p i :=
  transGen_mono (fun hn => ⟨_, (h.node?_of_some hn).2, rfl⟩) hp

/-- A node that is left is below what it was below before. -/
theorem transGen_of_left (h : Clears t gone loose t') (hf : t'.WellFormed) {p i : String}
    (hi : i ∈ keys t'.nodes) (hp : Relation.TransGen t.IsParent p i) :
    Relation.TransGen t'.IsParent p i := by
  have step {p i : String} (hi : i ∈ keys t'.nodes) : t.IsParent p i → t'.IsParent p i := by
    rintro ⟨n, hn, hp⟩
    obtain ⟨m, hm⟩ := Assoc.exists_get?_of_mem_keys hi
    have := (h.node?_of_some hm).2
    rw [hn, Option.some.injEq] at this
    exact ⟨n, this ▸ hm, hp⟩
  induction hp with
  | single h => exact .single (step hi h)
  | tail _ h ih =>
      have hs := step hi h
      obtain ⟨n, hn, hp⟩ := id hs
      exact .tail (ih (hf.parents hn hp)) hs

/-- Nodes that are left are the same, in the same order. -/
theorem nodes_eq (h : Clears t gone loose t') : t'.nodes = t.nodes.filter fun n => n.1 ∉ gone := by
  obtain ⟨_, _, rfl, -, -⟩ := h
  rfl

/-- What a row that is left refers to is left. -/
theorem not_mem_of_key (h : Clears t gone loose t') {i : String} (hi : i ∈ keys t'.nodes) :
    i ∉ gone := by
  obtain ⟨m, hm⟩ := Assoc.exists_get?_of_mem_keys hi
  exact (h.node?_of_some hm).1

/-- In well-formed tables exactly the edges that refer to what is gone are gone. -/
theorem edges_eq (h : Clears t gone gone t') (hf : t.WellFormed) (hf' : t'.WellFormed) :
    t'.edges = t.edges.filter fun e => e.2.source ∉ gone ∧ e.2.target ∉ gone := by
  have left {i : String} (hi : i ∈ keys t'.nodes) : i ∉ gone := h.not_mem_of_key hi
  obtain ⟨es, rs, rfl, he, -⟩ := h
  refine List.filter_congr fun e hmem => ?_
  have hg := Assoc.get?_of_mem hf.edges.proper hmem
  rw [decide_eq_decide]
  constructor
  · intro hes
    obtain ⟨hs, ht⟩ := hf'.ends (i := e.1) (e := e.2) (by rw [without, get?_sparing, if_neg hes, hg])
    exact ⟨left hs, left ht⟩
  · rintro ⟨hs, ht⟩ hes
    exact (he e.1 hes e.2 hg).elim hs ht

/-- In well-formed tables exactly the records of what is gone are gone. -/
theorem records_eq (h : Clears t gone gone t') (hf : t.WellFormed) (hf' : t'.WellFormed) :
    t'.records = t.records.filter fun r => r.2.nodeId ∉ gone := by
  have left {i : String} (hi : i ∈ keys t'.nodes) : i ∉ gone := h.not_mem_of_key hi
  obtain ⟨es, rs, rfl, -, hr⟩ := h
  refine List.filter_congr fun r hmem => ?_
  have hg := Assoc.get?_of_mem hf.records.proper hmem
  rw [decide_eq_decide]
  constructor
  · intro hrs
    exact left (hf'.owners (i := r.1) (r := r.2) (by rw [without, get?_sparing, if_neg hrs, hg]))
  · intro hn hrs
    exact hn (hr r.1 hrs r.2 hg)

end Clears

/-- A node is gone with nodes below it, and with exactly what refers to them. -/
def Fells (t : Tables) (top : String) (t' : Tables) : Prop :=
  ∃ gone, Clears t gone gone t' ∧ top ∈ gone ∧
    ∀ i ∈ gone, i = top ∨ Relation.TransGen t.IsParent top i

/-- Nodes below a node are gone, and with them exactly what refers to them. -/
def Prunes (t : Tables) (top : String) (t' : Tables) : Prop :=
  ∃ gone, Clears t gone gone t' ∧ ∀ i ∈ gone, Relation.TransGen t.IsParent top i

namespace Prunes

variable {t' t'' : Tables} {top : String}

theorem refl (t : Tables) (top : String) : Prunes t top t :=
  ⟨[], .refl t, fun _ h => nomatch h⟩

/-- A child falls as well. -/
theorem fell (h : Prunes t top t') {c : String} (hc : t.IsParent top c) (h' : Fells t' c t'') :
    Prunes t top t'' := by
  obtain ⟨gone, hg, hb⟩ := h
  obtain ⟨gone', hg', -, hb'⟩ := h'
  refine ⟨gone ++ gone', hg.trans hg', fun i hi => ?_⟩
  rcases List.mem_append.mp hi with hi | hi
  · exact hb i hi
  · rcases hb' i hi with rfl | hi
    · exact .single hc
    · exact .trans (.single hc) (hg.transGen hi)

/-- The node itself goes after its references and after what is below it. -/
theorem fells (hd : Clears t [] [top] t') (h : Prunes t' top t'') :
    Fells t top (t''.without [top] [] []) := by
  obtain ⟨gone, hg, hb⟩ := h
  have hn : Clears t'' [top] [] (t''.without [top] [] []) :=
    ⟨_, _, rfl, fun _ h => (nomatch h), fun _ h => nomatch h⟩
  refine ⟨top :: gone, ((hd.trans hg).trans hn).mono ?_ ?_, .head _, fun i hi => ?_⟩
  · simp [or_comm]
  · simp
  · exact (List.mem_cons.mp hi).imp_right fun hi => hd.transGen (hb i hi)

end Prunes

/-! ## Depth -/

/-- Fewer nodes are below a node than a number of steps. -/
def Fits (t : Tables) (top : String) (steps : Nat) : Prop :=
  ∃ l : List String, l.length < steps ∧ ∀ i, Relation.TransGen t.IsParent top i → i ∈ l

theorem fits_length (t : Tables) (top : String) : t.Fits top (t.nodes.length + 1) := by
  refine ⟨keys t.nodes, by simp [keys], fun i hi => ?_⟩
  cases hi with
  | single h => obtain ⟨n, hn, -⟩ := h; exact Assoc.mem_keys_of_get? hn
  | tail _ h => obtain ⟨n, hn, -⟩ := h; exact Assoc.mem_keys_of_get? hn

namespace Fits

variable {t' : Tables} {top : String} {steps : Nat}

/-- A child is below the node, and not below itself. -/
theorem child (h : t.Fits top (steps + 1)) (hf : t.WellFormed) {c : String}
    (hc : t.IsParent top c) : t.Fits c steps := by
  obtain ⟨l, hl, hmem⟩ := h
  have hcl : c ∈ l := hmem c (.single hc)
  refine ⟨l.filter (· ≠ c), ?_, fun i hi => ?_⟩
  · have hlt : (l.filter (· ≠ c)).length < l.length :=
      List.length_filter_lt_length_iff_exists.mpr ⟨c, hcl, by simp⟩
    omega
  · have hne : i ≠ c := fun h => hf.acyclic c (h ▸ hi)
    exact List.mem_filter.mpr ⟨hmem i (.trans (.single hc) hi), by simpa using hne⟩

/-- Removals leave at most as many nodes below. -/
theorem clears (h : t.Fits top steps) {gone loose : List String} (hc : t.Clears gone loose t') :
    t'.Fits top steps := by
  obtain ⟨l, hl, hmem⟩ := h
  exact ⟨l, hl, fun i hi => hmem i (hc.transGen hi)⟩

theorem pos (h : t.Fits top steps) : steps ≠ 0 := by
  obtain ⟨l, hl, -⟩ := h
  omega

end Fits

end IntentBuild.Tables
