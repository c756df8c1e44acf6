import IntentBuild.Graph.Tables
import IntentBuild.Proofs.Store.Indexed

/-!
# Well-formed tables

The rules of the graph as one predicate on its tables.  Every index is the inverse of its table.
A node has an existing parent or none, and no node is above itself.  An edge has both its ends,
and a record has its node.

Every elementary change keeps the rules: a new node below an existing one, a node with other
content in its place, a new edge or record, and the removal of an edge, of a record, or of a node
that nothing refers to.  In well-formed tables no removal misses a key (`deleteNode_ne_noKey` and
its like), so this fault never arises.
-/

namespace IntentBuild.Tables

open Assoc (keys)

/-- The node with the second identifier has the first one as its parent. -/
def IsParent (t : Tables) (p i : String) : Prop := ∃ n, t.node? i = some n ∧ n.parent = some p

/-- The rules of the graph. -/
structure WellFormed (t : Tables) : Prop where
  /-- The index of the nodes is the inverse of their table. -/
  nodes : Indexed Node.id Node.key t.nodes t.nodeIndex
  /-- The index of the edges is the inverse of their table. -/
  edges : Indexed Edge.id Edge.key t.edges t.edgeIndex
  /-- The index of the records is the inverse of their table. -/
  records : Indexed GenerationRecord.id GenerationRecord.key t.records t.recordIndex
  /-- A node has an existing parent or none. -/
  parents : ∀ {i n p}, t.node? i = some n → n.parent = some p → p ∈ keys t.nodes
  /-- No node is above itself. -/
  acyclic : ∀ i, ¬ Relation.TransGen t.IsParent i i
  /-- An edge has both its ends. -/
  ends : ∀ {i e}, Assoc.get? i t.edges = some e → e.source ∈ keys t.nodes ∧ e.target ∈ keys t.nodes
  /-- A record has its node. -/
  owners : ∀ {i r}, Assoc.get? i t.records = some r → r.nodeId ∈ keys t.nodes

variable {t t' : Tables}

theorem wellFormed_empty : WellFormed {} where
  nodes := Indexed.empty
  edges := Indexed.empty
  records := Indexed.empty
  parents h := by cases h
  acyclic i h := by
    cases h with
    | single h => obtain ⟨n, hn, _⟩ := h; cases hn
    | tail _ h => obtain ⟨n, hn, _⟩ := h; cases hn
  ends h := by cases h
  owners h := by cases h

/-! ## Rows and lists of rows -/

theorem mem_allNodes (h : t.WellFormed) {n : Node} : n ∈ t.allNodes ↔ t.node? n.id = some n := by
  constructor
  · intro hn
    obtain ⟨⟨i, n'⟩, hm, rfl⟩ := List.mem_map.mp hn
    have hg := Assoc.get?_of_mem h.nodes.proper hm
    rw [h.nodes.owned hg]; exact hg
  · exact fun hn => List.mem_map.mpr ⟨_, Assoc.mem_of_get? hn, rfl⟩

/-- No node stands in the list twice. -/
theorem nodup_allNodes (h : t.WellFormed) : (t.allNodes.map Node.id).Nodup := by
  have hids : t.allNodes.map Node.id = keys t.nodes := by
    rw [allNodes, List.map_map]
    exact List.map_congr_left fun e he => h.nodes.owned (Assoc.get?_of_mem h.nodes.proper he)
  rw [hids]
  exact h.nodes.proper

theorem mem_allEdges (h : t.WellFormed) {e : Edge} :
    e ∈ t.allEdges ↔ Assoc.get? e.id t.edges = some e := by
  constructor
  · intro he
    obtain ⟨⟨i, e'⟩, hm, rfl⟩ := List.mem_map.mp he
    have hg := Assoc.get?_of_mem h.edges.proper hm
    rw [h.edges.owned hg]; exact hg
  · exact fun he => List.mem_map.mpr ⟨_, Assoc.mem_of_get? he, rfl⟩

theorem mem_allRecords (h : t.WellFormed) {r : GenerationRecord} :
    r ∈ t.allRecords ↔ Assoc.get? r.id t.records = some r := by
  constructor
  · intro hr
    obtain ⟨⟨i, r'⟩, hm, rfl⟩ := List.mem_map.mp hr
    have hg := Assoc.get?_of_mem h.records.proper hm
    rw [h.records.owned hg]; exact hg
  · exact fun hr => List.mem_map.mpr ⟨_, Assoc.mem_of_get? hr, rfl⟩

/-- No record stands in the list twice. -/
theorem nodup_allRecords (h : t.WellFormed) : (t.allRecords.map GenerationRecord.id).Nodup := by
  have hids : t.allRecords.map GenerationRecord.id = keys t.records := by
    rw [allRecords, List.map_map]
    exact List.map_congr_left fun e he => h.records.owned (Assoc.get?_of_mem h.records.proper he)
  rw [hids]
  exact h.records.proper

/-- A node that is found by a key is in the table and has the key. -/
theorem findNode?_eq_some (h : t.WellFormed) {k : NodeKey} {n : Node} :
    t.findNode? k = some n ↔ t.node? n.id = some n ∧ n.key = k := by
  rw [findNode?, Option.bind_eq_some_iff]
  constructor
  · rintro ⟨i, hi, hn⟩
    obtain ⟨m, hm, hk⟩ := h.nodes.inverse.mp hi
    rw [node?, hm, Option.some.injEq] at hn
    subst hn
    rw [h.nodes.owned hm]
    exact ⟨hm, hk⟩
  · rintro ⟨hn, hk⟩
    exact ⟨n.id, hk ▸ h.nodes.index_eq hn, hn⟩

/-- A key without a node is not in the index. -/
theorem not_mem_of_findNode?_eq_none (h : t.WellFormed) {k : NodeKey} (hn : t.findNode? k = none) :
    k ∉ keys t.nodeIndex := by
  intro hk
  obtain ⟨i, hi⟩ := Assoc.exists_get?_of_mem_keys hk
  obtain ⟨n, hn', -⟩ := h.nodes.inverse.mp hi
  rw [findNode?, hi, Option.bind_some, node?, hn'] at hn
  cases hn

/-! ## Nodes -/

/-- What is above a node is a node. -/
theorem mem_keys_of_transGen (h : t.WellFormed) {a b : String}
    (hab : Relation.TransGen t.IsParent a b) : a ∈ keys t.nodes := by
  induction hab with
  | single hs => obtain ⟨n, hn, hp⟩ := hs; exact h.parents hn hp
  | tail _ _ ih => exact ih

/-- A new node whose parent exists is a leaf, so it closes no circle. -/
theorem acyclic_insert (h : t.WellFormed) {n : Node} (hi : n.id ∉ keys t.nodes)
    (hp : ∀ p, n.parent = some p → p ∈ keys t.nodes) (i : String) :
    ¬ Relation.TransGen (t.setNode n).IsParent i i := by
  have step : ∀ {a b}, (t.setNode n).IsParent a b →
      t.IsParent a b ∨ (b = n.id ∧ a ∈ keys t.nodes) := by
    rintro a b ⟨m, hm, ha⟩
    rw [node?, setNode, Assoc.get?_set] at hm
    split at hm
    · rw [Option.some.injEq] at hm
      subst hm
      exact Or.inr ⟨‹_›, hp a ha⟩
    · exact Or.inl ⟨m, hm, ha⟩
  have path : ∀ {a b}, Relation.TransGen (t.setNode n).IsParent a b →
      (Relation.TransGen t.IsParent a b ∧ b ∈ keys t.nodes) ∨
        (b = n.id ∧ a ∈ keys t.nodes) := by
    intro a b hab
    induction hab with
    | single hs =>
        rcases step hs with ⟨m, hm, ha⟩ | hn
        · exact Or.inl ⟨.single ⟨m, hm, ha⟩, Assoc.mem_keys_of_get? hm⟩
        · exact Or.inr hn
    | @tail b c _ hs ih =>
        rcases step hs with ⟨m, hm, hb⟩ | ⟨hc, hbk⟩
        · have hbk := h.parents hm hb
          rcases ih with ⟨hab, _⟩ | ⟨hbn, _⟩
          · exact Or.inl ⟨.tail hab ⟨m, hm, hb⟩, Assoc.mem_keys_of_get? hm⟩
          · exact absurd (hbn ▸ hbk) hi
        · rcases ih with ⟨hab, _⟩ | ⟨hbn, _⟩
          · exact Or.inr ⟨hc, mem_keys_of_transGen h hab⟩
          · exact absurd (hbn ▸ hbk) hi
  intro hc
  rcases path hc with ⟨ho, _⟩ | ⟨he, hk⟩
  · exact h.acyclic i ho
  · exact hi (he ▸ hk)

theorem wellFormed_setNode (h : t.WellFormed) {n : Node} (hi : n.id ∉ keys t.nodes)
    (hk : n.key ∉ keys t.nodeIndex) (hp : ∀ p, n.parent = some p → p ∈ keys t.nodes) :
    (t.setNode n).WellFormed where
  nodes := h.nodes.insert hi hk
  edges := h.edges
  records := h.records
  parents {i m p} hm hpm := by
    refine Assoc.mem_keys_set.mpr (Or.inr ?_)
    rw [node?, setNode, Assoc.get?_set] at hm
    split at hm
    · rw [Option.some.injEq] at hm; subst hm; exact hp p hpm
    · exact h.parents hm hpm
  acyclic := acyclic_insert h hi hp
  ends he := ⟨Assoc.mem_keys_set.mpr (Or.inr (h.ends he).1),
    Assoc.mem_keys_set.mpr (Or.inr (h.ends he).2)⟩
  owners hr := Assoc.mem_keys_set.mpr (Or.inr (h.owners hr))

/-- The tables with other content in a node. -/
def putNode (t : Tables) (n : Node) : Tables := { t with nodes := Assoc.set n.id n t.nodes }

theorem node?_putNode (n : Node) (i : String) :
    (t.putNode n).node? i = if i = n.id then some n else t.node? i := Assoc.get?_set ..

/-- What an insertion asks for, and what it gives. -/
theorem insertNode_eq_ok {n : Node} (h : t.insertNode n = .ok t') :
    t' = t.setNode n ∧ n.id ∉ keys t.nodes ∧ n.key ∉ keys t.nodeIndex ∧
      ∀ p, n.parent = some p → p ∈ keys t.nodes := by
  unfold insertNode at h
  split at h
  · cases h
  · split at h
    · cases h
    · rename_i hi hk
      refine ⟨?_, fun hm => hi (Assoc.has_iff.mpr hm), fun hm => hk (Assoc.has_iff.mpr hm), ?_⟩
      · split at h
        · split at h
          · cases h; rfl
          · cases h
        · cases h; rfl
      · intro p hp
        rw [hp] at h
        dsimp only at h
        split at h
        · exact Assoc.has_iff.mp ‹_›
        · cases h

/-- What an insertion asks for is enough. -/
theorem insertNode_of {n : Node} (hi : n.id ∉ keys t.nodes) (hk : n.key ∉ keys t.nodeIndex)
    (hp : ∀ p, n.parent = some p → p ∈ keys t.nodes) : t.insertNode n = .ok (t.setNode n) := by
  rw [insertNode, if_neg (fun h => hi (Assoc.has_iff.mp h)),
    if_neg (fun h => hk (Assoc.has_iff.mp h))]
  cases h : n.parent with
  | none => rfl
  | some p => exact if_pos (Assoc.has_iff.mpr (hp p h))

theorem wellFormed_insertNode (h : t.WellFormed) {n : Node} (hn : t.insertNode n = .ok t') :
    t'.WellFormed := by
  obtain ⟨rfl, hi, hk, hp⟩ := insertNode_eq_ok hn
  exact wellFormed_setNode h hi hk hp

/-- What is below a node depends only on the parents. -/
theorem transGen_mono {old : Tables}
    (hsub : ∀ {i n}, t.node? i = some n → ∃ m, old.node? i = some m ∧ m.parent = n.parent)
    {a b : String} (h : Relation.TransGen t.IsParent a b) : Relation.TransGen old.IsParent a b := by
  have step : ∀ {a b}, t.IsParent a b → old.IsParent a b := by
    rintro a b ⟨n, hn, hp⟩
    obtain ⟨m, hm, he⟩ := hsub hn
    exact ⟨m, hm, he.trans hp⟩
  induction h with
  | single hs => exact .single (step hs)
  | tail _ hs ih => exact .tail ih (step hs)

theorem isParent_mono {old : Tables}
    (hsub : ∀ {i n}, t.node? i = some n → ∃ m, old.node? i = some m ∧ m.parent = n.parent)
    (ha : ∀ i, ¬ Relation.TransGen old.IsParent i i) (i : String) :
    ¬ Relation.TransGen t.IsParent i i := fun hc => ha i (transGen_mono hsub hc)

theorem wellFormed_putNode (h : t.WellFormed) {n old : Node} (ho : t.node? n.id = some old)
    (hk : n.key = old.key) : (t.putNode n).WellFormed := by
  have hkeys : keys (t.putNode n).nodes = keys t.nodes :=
    Assoc.keys_set_of_mem (Assoc.mem_keys_of_get? ho) _
  have hpar : n.parent = old.parent := congrArg NodeKey.parent hk
  have back : ∀ {i m}, (t.putNode n).node? i = some m →
      ∃ m', t.node? i = some m' ∧ m'.parent = m.parent := by
    intro i m hm
    rw [node?_putNode] at hm
    split at hm
    · rename_i hi
      rw [Option.some.injEq] at hm
      subst hm
      exact ⟨old, hi ▸ ho, hpar.symm⟩
    · exact ⟨m, hm, rfl⟩
  exact
    { nodes := h.nodes.replace ho rfl hk
      edges := h.edges
      records := h.records
      parents := fun hm hp => by
        obtain ⟨m', hm', he⟩ := back hm
        rw [hkeys]
        exact h.parents hm' (he.trans hp)
      acyclic := isParent_mono back h.acyclic
      ends := fun he => by rw [hkeys]; exact h.ends he
      owners := fun hr => by rw [hkeys]; exact h.owners hr }

/-- A node with the key of the one that it replaces just takes its place. -/
theorem updateNode_of_key_eq {n old : Node} (ho : t.node? n.id = some old) (hk : n.key = old.key) :
    t.updateNode n = .done (t.putNode n) := by
  simp [updateNode, ho, hk, putNode]

/-- The tables without a node and its key. -/
def dropNode (t : Tables) (n : Node) : Tables :=
  { t with nodes := Assoc.erase n.id t.nodes, nodeIndex := Assoc.erase n.key t.nodeIndex }

theorem node?_dropNode (n : Node) (i : String) :
    (t.dropNode n).node? i = if i = n.id then none else t.node? i := Assoc.get?_erase ..

/-- Nothing refers to an identifier. -/
structure Unreferenced (t : Tables) (id : String) : Prop where
  /-- No node has it as its parent. -/
  child : ∀ {i n}, t.node? i = some n → n.parent ≠ some id
  /-- No edge has it as an end. -/
  edge : ∀ {i e}, Assoc.get? i t.edges = some e → e.source ≠ id ∧ e.target ≠ id
  /-- No record belongs to it. -/
  record : ∀ {i r}, Assoc.get? i t.records = some r → r.nodeId ≠ id

theorem wellFormed_dropNode (h : t.WellFormed) {n : Node} (hn : t.node? n.id = some n)
    (hu : t.Unreferenced n.id) : (t.dropNode n).WellFormed := by
  have back : ∀ {i m}, (t.dropNode n).node? i = some m → t.node? i = some m := by
    intro i m hm
    rw [node?_dropNode] at hm
    split at hm
    · cases hm
    · exact hm
  have keep : ∀ {i}, i ∈ keys t.nodes → i ≠ n.id → i ∈ keys (t.dropNode n).nodes :=
    fun hi hne => Assoc.mem_keys_erase.mpr ⟨hi, hne⟩
  exact
    { nodes := h.nodes.erase hn
      edges := h.edges
      records := h.records
      parents := fun hm hp =>
        keep (h.parents (back hm) hp) fun he => hu.child (back hm) (he ▸ hp)
      acyclic := isParent_mono (fun hm => ⟨_, back hm, rfl⟩) h.acyclic
      ends := fun he =>
        ⟨keep (h.ends he).1 (hu.edge he).1, keep (h.ends he).2 (hu.edge he).2⟩
      owners := fun hr => keep (h.owners hr) (hu.record hr) }

/-- A node is deleted only when nothing refers to it. -/
theorem deleteNode_eq_done (h : t.WellFormed) {id : String} (hd : t.deleteNode id = .done t') :
    ∃ n, n.id = id ∧ t.node? id = some n ∧ t.Unreferenced id ∧ t' = t.dropNode n := by
  unfold deleteNode at hd
  split at hd
  · cases hd
  · rename_i n hn
    have hid : n.id = id := h.nodes.owned hn
    split at hd
    · cases hd
    · split at hd
      · cases hd
      · split at hd
        · cases hd
        · rename_i hc he hr
          split at hd
          · cases hd
            refine ⟨n, hid, hn, ⟨?_, ?_, ?_⟩, by rw [dropNode, hid]⟩
            · intro i m hm hp
              refine hc (List.any_eq_true.mpr ⟨m, ?_, by simp [hp]⟩)
              exact List.mem_map.mpr ⟨_, Assoc.mem_of_get? hm, rfl⟩
            · intro i e hg
              have hm : e ∈ t.allEdges := List.mem_map.mpr ⟨_, Assoc.mem_of_get? hg, rfl⟩
              have := fun hx => he (List.any_eq_true.mpr ⟨e, hm, hx⟩)
              simpa using this
            · intro i r hg hx
              refine hr (List.any_eq_true.mpr ⟨r, ?_, by simp [hx]⟩)
              exact List.mem_map.mpr ⟨_, Assoc.mem_of_get? hg, rfl⟩
          · cases hd

theorem deleteNode_ne_noKey (h : t.WellFormed) {id : String} : t.deleteNode id ≠ .noKey t' := by
  intro hd
  unfold deleteNode at hd
  split at hd
  · cases hd
  · rename_i n hn
    have hk : Assoc.has n.key t.nodeIndex = true :=
      Assoc.has_iff.mpr (Assoc.mem_keys_of_get? (h.nodes.index_eq hn))
    rw [if_pos hk] at hd
    repeat' split at hd
    all_goals cases hd

/-! ## Edges -/

/-- What an insertion asks for, and what it gives. -/
theorem insertEdge_eq_ok {e : Edge} (h : t.insertEdge e = .ok t') :
    t' = t.setEdge e ∧ e.source ∈ keys t.nodes ∧ e.target ∈ keys t.nodes ∧
      e.key ∉ keys t.edgeIndex := by
  unfold insertEdge at h
  split at h
  · cases h
  · split at h
    · cases h
    · rename_i hends hk
      simp only [Bool.or_eq_true, Bool.not_eq_true', not_or, Bool.not_eq_false] at hends
      cases h
      exact ⟨rfl, Assoc.has_iff.mp hends.1, Assoc.has_iff.mp hends.2,
        fun hm => hk (Assoc.has_iff.mpr hm)⟩

/-- What an insertion asks for is enough. -/
theorem insertEdge_of {e : Edge} (hs : e.source ∈ keys t.nodes) (ht : e.target ∈ keys t.nodes)
    (hk : e.key ∉ keys t.edgeIndex) : t.insertEdge e = .ok (t.setEdge e) := by
  rw [insertEdge, Assoc.has_iff.mpr hs, Assoc.has_iff.mpr ht, Assoc.has_eq_false_iff.mpr hk]
  rfl

theorem wellFormed_setEdge (h : t.WellFormed) {e : Edge} (hi : e.id ∉ keys t.edges)
    (hk : e.key ∉ keys t.edgeIndex) (hs : e.source ∈ keys t.nodes)
    (ht : e.target ∈ keys t.nodes) : (t.setEdge e).WellFormed where
  nodes := h.nodes
  edges := h.edges.insert hi hk
  records := h.records
  parents := h.parents
  acyclic := h.acyclic
  ends {i e'} he := by
    rw [setEdge, Assoc.get?_set] at he
    split at he
    · rw [Option.some.injEq] at he; subst he; exact ⟨hs, ht⟩
    · exact h.ends he
  owners := h.owners

/-- The tables without an edge and its key. -/
def dropEdge (t : Tables) (e : Edge) : Tables :=
  { t with edges := Assoc.erase e.id t.edges, edgeIndex := Assoc.erase e.key t.edgeIndex }

theorem wellFormed_dropEdge (h : t.WellFormed) {e : Edge} (he : Assoc.get? e.id t.edges = some e) :
    (t.dropEdge e).WellFormed where
  nodes := h.nodes
  edges := h.edges.erase he
  records := h.records
  parents := h.parents
  acyclic := h.acyclic
  ends {i e'} hg := by
    rw [dropEdge, Assoc.get?_erase] at hg
    split at hg
    · cases hg
    · exact h.ends hg
  owners := h.owners

/-- In well-formed tables an edge that is there is deleted with its key. -/
theorem deleteEdge_of_get? (h : t.WellFormed) {id : String} {e : Edge}
    (he : Assoc.get? id t.edges = some e) : t.deleteEdge id = .done (t.dropEdge e) := by
  have hk : Assoc.has e.key t.edgeIndex = true :=
    Assoc.has_iff.mpr (Assoc.mem_keys_of_get? (h.edges.index_eq he))
  simp [deleteEdge, he, hk, dropEdge, h.edges.owned he]

theorem deleteEdge_of_none {id : String} (he : Assoc.get? id t.edges = none) :
    t.deleteEdge id = .absent := by simp [deleteEdge, he]

/-! ## Records -/

/-- The record as it is kept: the identifier of the record with its key stays. -/
def kept (t : Tables) (r : GenerationRecord) : GenerationRecord :=
  match Assoc.get? r.key t.recordIndex with
  | some id => { r with id := id }
  | none => r

theorem kept_nodeId (r : GenerationRecord) : (t.kept r).nodeId = r.nodeId := by
  unfold kept; split <;> rfl

theorem kept_created (r : GenerationRecord) : (t.kept r).created = r.created := by
  unfold kept; split <;> rfl

/-- A record that is kept under an identifier in use has the key of the record that stood there. -/
theorem key_eq_kept (h : t.WellFormed) {r old : GenerationRecord} (hi : r.id ∉ keys t.records)
    (ho : Assoc.get? (t.kept r).id t.records = some old) : old.key = (t.kept r).key := by
  unfold kept at ho ⊢
  split at ho
  · rename_i id hid
    obtain ⟨q, hq, hk⟩ := h.records.inverse.mp hid
    obtain rfl := Option.some.inj (ho.symm.trans hq)
    exact hk
  · exact absurd (Assoc.mem_keys_of_get? ho) hi

/-- What storing a record asks for, and what it gives. -/
theorem upsertRecord_eq_ok {r kept : GenerationRecord} (h : t.upsertRecord r = .ok (t', kept)) :
    kept = t.kept r ∧ t' = t.setRecord (t.kept r) ∧ r.nodeId ∈ keys t.nodes := by
  unfold upsertRecord at h
  split at h
  · cases h
  · rename_i hn
    rw [Bool.not_eq_true', Bool.not_eq_false] at hn
    cases h
    exact ⟨rfl, rfl, Assoc.has_iff.mp hn⟩

/-- A record of a node that is there is stored. -/
theorem upsertRecord_of {r : GenerationRecord} (h : r.nodeId ∈ keys t.nodes) :
    t.upsertRecord r = .ok (t.setRecord (t.kept r), t.kept r) := by
  rw [upsertRecord, Assoc.has_iff.mpr h]
  rfl

theorem wellFormed_setRecord (h : t.WellFormed) {r : GenerationRecord}
    (hi : r.id ∉ keys t.records) (hn : r.nodeId ∈ keys t.nodes) :
    (t.setRecord (t.kept r)).WellFormed := by
  have hrec : Indexed GenerationRecord.id GenerationRecord.key
      (t.setRecord (t.kept r)).records (t.setRecord (t.kept r)).recordIndex := by
    unfold kept
    split
    · rename_i id hid
      obtain ⟨old, ho, hk⟩ := h.records.inverse.mp hid
      have hrep := h.records.replace (a := { r with id := id }) ho rfl hk.symm
      rw [← Assoc.set_of_get? hid] at hrep
      exact hrep
    · rename_i hid
      exact h.records.insert hi (Assoc.get?_eq_none_iff.mp hid)
  exact
    { nodes := h.nodes
      edges := h.edges
      records := hrec
      parents := h.parents
      acyclic := h.acyclic
      ends := h.ends
      owners := fun {i r'} hg => by
        rw [setRecord, Assoc.get?_set] at hg
        split at hg
        · rw [Option.some.injEq] at hg; subst hg; rw [kept_nodeId]; exact hn
        · exact h.owners hg }

/-- The tables without a record and its key. -/
def dropRecord (t : Tables) (r : GenerationRecord) : Tables :=
  { t with
    records := Assoc.erase r.id t.records
    recordIndex := Assoc.erase r.key t.recordIndex }

theorem wellFormed_dropRecord (h : t.WellFormed) {r : GenerationRecord}
    (hr : Assoc.get? r.id t.records = some r) : (t.dropRecord r).WellFormed where
  nodes := h.nodes
  edges := h.edges
  records := h.records.erase hr
  parents := h.parents
  acyclic := h.acyclic
  ends := h.ends
  owners {i r'} hg := by
    rw [dropRecord, Assoc.get?_erase] at hg
    split at hg
    · cases hg
    · exact h.owners hg

/-- In well-formed tables a record that is there is deleted with its key. -/
theorem deleteRecord_of_get? (h : t.WellFormed) {id : String} {r : GenerationRecord}
    (hr : Assoc.get? id t.records = some r) : t.deleteRecord id = .done (t.dropRecord r) := by
  have hk : Assoc.has r.key t.recordIndex = true :=
    Assoc.has_iff.mpr (Assoc.mem_keys_of_get? (h.records.index_eq hr))
  simp [deleteRecord, hr, hk, dropRecord, h.records.owned hr]

theorem deleteRecord_of_none {id : String} (hr : Assoc.get? id t.records = none) :
    t.deleteRecord id = .absent := by simp [deleteRecord, hr]

/-! ## Orphans -/

/-- Well-formed tables have no orphans. -/
theorem orphans_eq_nil (h : t.WellFormed) : t.orphanNodes = [] ∧ t.orphanEdges = [] := by
  constructor
  · refine List.filter_eq_nil_iff.mpr fun n hn => ?_
    rw [mem_allNodes h] at hn
    split
    · rename_i p hp
      have := Assoc.has_iff.mpr (h.parents hn hp)
      simp [this]
    · simp
  · refine List.filter_eq_nil_iff.mpr fun e he => ?_
    rw [mem_allEdges h] at he
    simp [Assoc.has_iff.mpr (h.ends he).1, Assoc.has_iff.mpr (h.ends he).2]

end IntentBuild.Tables
