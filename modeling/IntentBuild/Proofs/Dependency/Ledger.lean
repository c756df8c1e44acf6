import IntentBuild.Proofs.Dependency.Pointers
import IntentBuild.Proofs.Graph.Changes

/-!
# The ledger of a project

The files of a project, the edges from them to the manifest and the map of the manifest are a
ledger in three parts.  `Entries` says that the parts which the files have a hand in agree: every
file points at exactly the names that it declares, and nothing else points at the manifest.
`Ledger` says on top that the manifest holds the union.

Each way to change the tables keeps the entries in agreement: making the manifest
(`Entries.found`), changing a file with its edges (`Entries.declare`), and deleting files
(`Entries.clears`).  Writing the union to the manifest settles the ledger (`Entries.settle`).
-/

namespace IntentBuild

/-- The node is a file. -/
def NodeType.IsFile (τ : NodeType) : Prop := τ = .specFile ∨ τ = .intentFile ∨ τ = .sourceFile

namespace Manifest

open Assoc (keys Proper)

/-- The address of the manifest of a project. -/
def address (p : Node) (instanceId : String) : NodeKey :=
  ⟨some p.id, instanceId, .deps, "Dependencies"⟩

/-- A node of the tables is a file below a project. -/
structure FileOf (t : Tables) (p n : Node) : Prop where
  /-- The node is in the table. -/
  stored : t.node? n.id = some n
  /-- The node is a file. -/
  type : n.type.IsFile
  /-- The node is below the project. -/
  below : Relation.TransGen t.IsParent p.id n.id

/-- The pointers of files at a manifest, in the order of the edges. -/
def pointers (t : Tables) (manifest : String) : List Pointer :=
  (t.edgesTo manifest (some .dependsOn)).map fun e => (e.source, e.name)

/-- The version that a node declares for a name. -/
def versionIn (t : Tables) (id name : String) : Option String :=
  match t.node? id with
  | some n => (textsAt "deps" n).toOption.bind (Assoc.get? name)
  | none => none

theorem versionIn_eq {t : Tables} {n : Node} {m : Dependencies} (hn : t.node? n.id = some n)
    (hm : textsAt "deps" n = .ok m) (name : String) : versionIn t n.id name = Assoc.get? name m := by
  rw [versionIn, hn]
  simp only [hm]
  rfl

/-- What a file declares is an orderly map. -/
structure Sheet (n : Node) (m : Dependencies) : Prop where
  /-- The map of the file. -/
  texts : textsAt "deps" n = .ok m
  /-- The map is in order. -/
  orderly : Orderly m

/-- The parts of the ledger that the files have a hand in agree. -/
structure Entries (p : Node) (k : NodeKey) (t : Tables) : Prop where
  /-- The project is there. -/
  project : p.id ∈ keys t.nodes
  /-- What a file declares is an orderly map. -/
  sheet : ∀ {n}, FileOf t p n → ∃ m, Sheet n m
  /-- A file points at the names that it declares. -/
  points : ∀ {n m}, FileOf t p n → Sheet n m → ∀ name,
    name ∈ keys m ↔ ∃ b, t.findNode? k = some b ∧ (n.id, name) ∈ pointers t b.id
  /-- Only files point at the manifest. -/
  file : ∀ {b s name}, t.findNode? k = some b → (s, name) ∈ pointers t b.id →
    ∃ n, FileOf t p n ∧ n.id = s
  /-- The manifest has a map in order. -/
  manifest : ∀ {b}, t.findNode? k = some b →
    ∃ m, texts? "deps" b = some m ∧ Proper m ∧ Text.sortByKey m = m

/-- The entries agree, and the manifest holds the union. -/
structure Ledger (p : Node) (k : NodeKey) (t : Tables) : Prop extends Entries p k t where
  /-- The manifest holds the union of what the files declare. -/
  balanced : ∀ {b}, t.findNode? k = some b →
    texts? "deps" b = some (union (versionIn t) (pointers t b.id))

/-! ## Pointers and edges -/

variable {p : Node} {k : NodeKey} {t t' : Tables} {b : Node} {mid s name : String}

theorem mem_pointers (hf : t.WellFormed) :
    (s, name) ∈ pointers t mid ↔ (⟨s, mid, .dependsOn, name⟩ : EdgeKey) ∈ keys t.edgeIndex := by
  constructor
  · intro h
    obtain ⟨e, he, heq⟩ := List.mem_map.mp h
    obtain ⟨he, hp⟩ := List.mem_filter.mp he
    have he := (Tables.mem_allEdges hf).mp he
    have hk := hf.edges.index_eq he
    simp only [Option.isNone_some, Bool.false_or, Bool.and_eq_true, beq_iff_eq,
      Option.some.injEq] at hp
    have : e.key = ⟨s, mid, .dependsOn, name⟩ := by
      rw [Edge.key, ← hp.1, ← hp.2]
      cases heq
      rfl
    rw [← this]
    exact Assoc.mem_keys_of_get? hk
  · intro h
    obtain ⟨i, hi⟩ := Assoc.exists_get?_of_mem_keys h
    obtain ⟨e, he, hk⟩ := hf.edges.inverse.mp hi
    have hid := hf.edges.owned he
    subst hid
    refine List.mem_map.mpr ⟨e, List.mem_filter.mpr ⟨(Tables.mem_allEdges hf).mpr he, ?_⟩, ?_⟩
    · have ht : e.target = mid := congrArg EdgeKey.target hk
      have hty : e.type = .dependsOn := congrArg EdgeKey.type hk
      simp [ht, hty]
    · exact Prod.ext (congrArg EdgeKey.source hk) (congrArg EdgeKey.name hk)

theorem pointers_congr (h : t'.edges = t.edges) (mid : String) :
    pointers t' mid = pointers t mid := by
  rw [pointers, pointers, Tables.edgesTo, Tables.edgesTo, Tables.allEdges, Tables.allEdges, h]

/-- Nothing points at what is not there. -/
theorem pointers_eq_nil (hf : t.WellFormed) (h : mid ∉ keys t.nodes) : pointers t mid = [] := by
  refine List.map_eq_nil_iff.mpr (List.filter_eq_nil_iff.mpr fun e he hp => h ?_)
  rw [Bool.and_eq_true, beq_iff_eq] at hp
  exact hp.1 ▸ (hf.ends ((Tables.mem_allEdges hf).mp he)).2

/-- A link to the manifest adds its pointer. -/
theorem pointers_linked (hf : t.WellFormed) {e : Edge} (hk : e.key = ⟨s, mid, .dependsOn, name⟩)
    (h : Graph.Linked t e t') :
    pointers t' mid =
      if (s, name) ∈ pointers t mid then pointers t mid else pointers t mid ++ [(s, name)] := by
  cases h with
  | old h =>
      rw [if_pos ((mem_pointers hf).mpr (hk ▸ Assoc.mem_keys_of_get? (hf.edges.index_eq h)))]
  | new h hi =>
      obtain ⟨rfl, -, -, hnot⟩ := Tables.insertEdge_eq_ok h
      rw [if_neg fun hm => hnot (hk ▸ (mem_pointers hf).mp hm)]
      have ht : e.target = mid := congrArg EdgeKey.target hk
      have hty : e.type = .dependsOn := congrArg EdgeKey.type hk
      have hs : e.source = s := congrArg EdgeKey.source hk
      have hn : e.name = name := congrArg EdgeKey.name hk
      simp [pointers, Tables.edgesTo, Tables.allEdges, Tables.setEdge, Assoc.set_of_not_mem hi, ht,
        hty, hs, hn]

/-- A link that goes takes its pointer along. -/
theorem pointers_unlinked (hf : t.WellFormed) {e : Edge} (he : Assoc.get? e.id t.edges = some e)
    (hk : e.key = ⟨s, mid, .dependsOn, name⟩) :
    pointers (t.without [] [e.id] []) mid = (pointers t mid).filter (· ≠ (s, name)) := by
  rw [pointers, pointers, List.filter_map]
  congr 1
  have hedges : (t.without [] [e.id] []).edges = t.edges.filter fun d => d.1 ∉ [e.id] := rfl
  rw [Tables.edgesTo, Tables.edgesTo, Tables.allEdges, Tables.allEdges, hedges, List.filter_map,
    List.filter_map, List.filter_map, List.filter_filter, List.filter_filter]
  congr 1
  refine List.filter_congr fun d hd => ?_
  have hd := Assoc.get?_of_mem hf.edges.proper hd
  have hid := hf.edges.owned hd
  rw [Bool.eq_iff_iff]
  simp only [Function.comp_apply, Bool.and_eq_true, beq_iff_eq, decide_eq_true_eq,
    List.mem_singleton, Option.isNone_some, Bool.false_or, Option.some.injEq, Prod.mk.injEq, ne_eq]
  -- An edge to the manifest has the key of the one that goes just when it is that one.
  constructor
  · rintro ⟨⟨ht, hty⟩, hne⟩
    refine ⟨fun ⟨hs, hn⟩ => hne ?_, ht, hty⟩
    refine hf.edges.unique hd he ?_
    rw [hk, Edge.key, hs, hn, ht, ← hty]
  · rintro ⟨hne, ht, hty⟩
    refine ⟨⟨ht, hty⟩, fun hi => hne ?_⟩
    rw [hi, he, Option.some.injEq] at hd
    rw [← hd]
    exact ⟨congrArg EdgeKey.source hk, congrArg EdgeKey.name hk⟩

/-! ## Making the manifest -/

/-- A new node that is no file leaves the files alone. -/
theorem fileOf_setNode (hf : t.WellFormed) {b n : Node} (hi : b.id ∉ keys t.nodes)
    (hb : ¬ b.type.IsFile) : FileOf (t.setNode b) p n ↔ FileOf t p n := by
  have node (i : String) :
      (t.setNode b).node? i = if i = b.id then some b else t.node? i := Assoc.get?_set ..
  constructor
  · rintro ⟨hn, hty, hp⟩
    rw [node] at hn
    split at hn
    · rw [Option.some.injEq] at hn
      exact absurd (hn ▸ hty) hb
    · rename_i hne
      refine ⟨hn, hty, ?_⟩
      generalize n.id = i at hp hne
      have step {a i : String} (hne : i ≠ b.id) : (t.setNode b).IsParent a i → t.IsParent a i := by
        rintro ⟨m, hm, ha⟩
        rw [node, if_neg hne] at hm
        exact ⟨m, hm, ha⟩
      induction hp with
      | single h => exact .single (step hne h)
      | tail _ h ih =>
          have hs := step hne h
          obtain ⟨m, hm, ha⟩ := id hs
          exact .tail (ih fun he => hi (he ▸ hf.parents hm ha)) hs
  · rintro ⟨hn, hty, hp⟩
    have hne {i : String} {m : Node} (hm : t.node? i = some m) : i ≠ b.id := fun he =>
      hi (he ▸ Assoc.mem_keys_of_get? hm)
    refine ⟨by rw [node, if_neg (hne hn)]; exact hn, hty, Tables.transGen_mono (fun hm => ?_) hp⟩
    exact ⟨_, by rw [node, if_neg (hne hm)]; exact hm, rfl⟩

namespace Entries

/-- The manifest is found or made, and the entries agree as before. -/
theorem found (h : Entries p k t) (hf : t.WellFormed) (hk : ¬ k.type.IsFile)
    (hb : Graph.Found t k (some [("deps", .obj [])]) b t') :
    Entries p k t' ∧ t'.findNode? k = some b ∧
      (t.findNode? k = none → pointers t' b.id = [] ∧ texts? "deps" b = some []) := by
  have hfind : t'.WellFormed → t'.findNode? k = some b := fun hf' =>
    (Tables.findNode?_eq_some hf').mpr (hb.node? hf)
  cases hb with
  | old ho => exact ⟨h, ho, fun hn => by rw [ho] at hn; cases hn⟩
  | new hn hkey hj _ _ =>
      have hf' := Tables.wellFormed_insertNode hf hn
      obtain ⟨rfl, hi, hki, -⟩ := Tables.insertNode_eq_ok hn
      have hfind := hfind hf'
      have htype : ¬ b.type.IsFile := fun hty => hk (hkey ▸ hty)
      have hold : t.findNode? k = none := by
        rw [Tables.findNode?, Assoc.get?_eq_none_iff.mpr (hkey ▸ hki), Option.bind_none]
      have hps : pointers (t.setNode b) b.id = [] := by
        have hedges : (t.setNode b).edges = t.edges := rfl
        rw [pointers_congr hedges]
        exact pointers_eq_nil hf hi
      have hmembers : b.members = [("deps", .obj [])] := by rw [Node.members, hj]; rfl
      have htexts : texts? "deps" b = some [] := by rw [texts?, hmembers]; rfl
      refine ⟨⟨Assoc.mem_keys_set.mpr (.inr h.project), fun hn => ?_, fun {n m} hn hm name => ?_,
        fun hb' hp => ?_, fun hb' => ?_⟩, hfind, fun _ => ⟨hps, htexts⟩⟩
      · exact h.sheet ((fileOf_setNode hf hi htype).mp hn)
      · rw [h.points ((fileOf_setNode hf hi htype).mp hn) hm name]
        constructor
        · rintro ⟨b', hb', -⟩
          rw [hold] at hb'
          cases hb'
        · rintro ⟨b', hb', hp⟩
          rw [hfind, Option.some.injEq] at hb'
          rw [← hb', hps] at hp
          cases hp
      · rw [hfind, Option.some.injEq] at hb'
        rw [← hb', hps] at hp
        cases hp
      · rw [hfind, Option.some.injEq] at hb'
        rw [← hb']
        exact ⟨[], htexts, Assoc.proper_nil, Sorting.sort_nil⟩

end Entries

theorem Ledger.found (h : Ledger p k t) (hf : t.WellFormed) (hk : ¬ k.type.IsFile)
    (hb : Graph.Found t k (some [("deps", .obj [])]) b t') :
    Ledger p k t' ∧ t'.findNode? k = some b := by
  obtain ⟨he, hfind, hnew⟩ := h.toEntries.found hf hk hb
  refine ⟨⟨he, fun {b'} hb' => ?_⟩, hfind⟩
  rw [hfind, Option.some.injEq] at hb'
  subst hb'
  cases hold : t.findNode? k with
  | none =>
      obtain ⟨hps, htexts⟩ := hnew hold
      rw [hps, htexts, union_nil]
  | some b₀ =>
      cases hb with
      | old ho => exact h.balanced ho
      | new hn hkey =>
          obtain ⟨-, -, hki, -⟩ := Tables.insertNode_eq_ok hn
          have hm := (Tables.findNode?_eq_some hf).mp hold
          exact absurd (Assoc.mem_keys_of_get? (hf.nodes.index_eq hm.1)) (hm.2 ▸ hkey ▸ hki)

/-! ## Changing a node in its place -/

section

variable {n old new : Node} (hput : ∀ i, t'.node? i = if i = new.id then some new else t.node? i)
  (ho : t.node? old.id = some old) (hid : new.id = old.id) (hkey : new.key = old.key)
include hput ho hid hkey

/-- A node in place of one with its address changes no other file. -/
theorem fileOf_put :
    FileOf t' p n ↔ n = new ∧ FileOf t p old ∨ n.id ≠ new.id ∧ FileOf t p n := by
  have hpar : new.parent = old.parent := congrArg NodeKey.parent hkey
  have htype : new.type = old.type := congrArg NodeKey.type hkey
  have back {i : String} {m : Node} (hm : t'.node? i = some m) :
      ∃ m', t.node? i = some m' ∧ m'.parent = m.parent := by
    rw [hput] at hm
    split at hm
    · rename_i hi
      cases hm
      exact ⟨old, by rw [hi, hid]; exact ho, hpar.symm⟩
    · exact ⟨m, hm, rfl⟩
  have forth {i : String} {m : Node} (hm : t.node? i = some m) :
      ∃ m', t'.node? i = some m' ∧ m'.parent = m.parent := by
    rw [hput]
    split
    · rename_i hi
      rw [hi, hid, ho, Option.some.injEq] at hm
      exact ⟨new, rfl, hm ▸ hpar⟩
    · exact ⟨m, hm, rfl⟩
  constructor
  · rintro ⟨hn, hty, hp⟩
    have hn' := hn
    rw [hput] at hn'
    split at hn'
    · cases hn'
      exact .inl ⟨rfl, ho, htype ▸ hty, hid ▸ Tables.transGen_mono back hp⟩
    · exact .inr ⟨‹_›, hn', hty, Tables.transGen_mono back hp⟩
  · rintro (⟨rfl, hf⟩ | ⟨hne, hf⟩)
    · exact ⟨by rw [hput, if_pos rfl], htype ▸ hf.type, hid ▸ Tables.transGen_mono forth hf.below⟩
    · exact ⟨by rw [hput, if_neg hne]; exact hf.stored, hf.type,
        Tables.transGen_mono forth hf.below⟩

/-- What is found at an address is the new node in place of the old one. -/
theorem findNode?_put (hf : t.WellFormed) (hf' : t'.WellFormed) :
    t'.findNode? k = if new.key = k then some new else t.findNode? k := by
  split
  · rename_i hk
    exact (Tables.findNode?_eq_some hf').mpr ⟨by rw [hput, if_pos rfl], hk⟩
  · rename_i hk
    refine Option.ext fun m => ?_
    rw [Tables.findNode?_eq_some hf', Tables.findNode?_eq_some hf, hput]
    constructor
    · rintro ⟨hm, hmk⟩
      split at hm
      · cases hm
        exact absurd hmk hk
      · exact ⟨hm, hmk⟩
    · rintro ⟨hm, hmk⟩
      refine ⟨?_, hmk⟩
      rw [if_neg fun he => hk ?_]
      · exact hm
      · rw [he, hid, ho, Option.some.injEq] at hm
        rw [hkey, hm, hmk]

omit ho hid hkey in
theorem mem_keys_put {i : String} (hi : i ∈ keys t.nodes) : i ∈ keys t'.nodes := by
  obtain ⟨m, hm⟩ := Assoc.exists_get?_of_mem_keys hi
  by_cases h : i = new.id
  · exact Assoc.mem_keys_of_get? (v := new) ((hput i).trans (if_pos h))
  · exact Assoc.mem_keys_of_get? (v := m) (((hput i).trans (if_neg h)).trans hm)

/-- A file declares something else, and points at what it declares now. -/
theorem Entries.declare (h : Entries p k t) (hf : t.WellFormed) (hf' : t'.WellFormed)
    (hk : ¬ k.type.IsFile) (hb : t.findNode? k = some b) (hfile : FileOf t p old)
    {m : Dependencies} (hm : Sheet new m)
    (hmine : ∀ name, (old.id, name) ∈ pointers t' b.id ↔ name ∈ keys m)
    (hothers : ∀ s name, s ≠ old.id →
      ((s, name) ∈ pointers t' b.id ↔ (s, name) ∈ pointers t b.id)) :
    Entries p k t' ∧ t'.findNode? k = some b := by
  have hfiles {n : Node} := fileOf_put (p := p) (n := n) hput ho hid hkey
  have hb' : t'.findNode? k = some b := by
    rw [findNode?_put hput ho hid hkey hf hf', if_neg]
    · exact hb
    · intro he
      exact hk (he ▸ hkey ▸ hfile.type)
  have hnew : FileOf t' p new := hfiles.mpr (.inl ⟨rfl, hfile⟩)
  have only {c : Node} (hc : t'.findNode? k = some c) : c = b := by
    rw [hb', Option.some.injEq] at hc
    exact hc.symm
  refine ⟨⟨mem_keys_put hput h.project, fun hn => ?_, fun hn hs name => ?_,
    fun hc hp => ?_, fun hc => ?_⟩, hb'⟩
  · rcases hfiles.mp hn with ⟨rfl, -⟩ | ⟨-, hn⟩
    · exact ⟨m, hm⟩
    · exact h.sheet hn
  · have hiff : ∀ s, (∃ c, t'.findNode? k = some c ∧ (s, name) ∈ pointers t' c.id) ↔
        (s, name) ∈ pointers t' b.id := fun s =>
      ⟨fun ⟨c, hc, hp⟩ => only hc ▸ hp, fun hp => ⟨b, hb', hp⟩⟩
    rw [hiff]
    rcases hfiles.mp hn with ⟨rfl, -⟩ | ⟨hne, hn⟩
    · have := hs.texts.symm.trans hm.texts
      cases this
      rw [hid, hmine]
    · rw [hothers _ _ (hid ▸ hne), h.points hn hs]
      exact ⟨fun ⟨c, hc, hp⟩ => by rw [hb] at hc; cases hc; exact hp, fun hp => ⟨b, hb, hp⟩⟩
  · rename_i c s name
    have := only hc
    subst this
    by_cases hs : s = old.id
    · exact ⟨new, hnew, hid.trans hs.symm⟩
    · obtain ⟨n, hn, rfl⟩ := h.file hb ((hothers s name hs).mp hp)
      exact ⟨n, hfiles.mpr (.inr ⟨hid ▸ hs, hn⟩), rfl⟩
  · have := only hc
    subst this
    exact h.manifest hb

/-- The manifest takes on the union. -/
theorem Entries.settle (h : Entries p k t) (hf : t.WellFormed) (hf' : t'.WellFormed)
    (hk : ¬ k.type.IsFile) (hb : t.findNode? k = some old)
    (hedges : t'.edges = t.edges)
    (htexts : texts? "deps" new = some (union (versionIn t) (pointers t old.id))) :
    Ledger p k t' ∧ t'.findNode? k = some new := by
  have hkold := ((Tables.findNode?_eq_some hf).mp hb).2
  have hfiles {n : Node} := fileOf_put (p := p) (n := n) hput ho hid hkey
  have hb' : t'.findNode? k = some new := by
    rw [findNode?_put hput ho hid hkey hf hf', if_pos (hkey.trans hkold)]
  have hps : pointers t' new.id = pointers t old.id := by
    rw [hid]
    exact pointers_congr hedges _
  have only {c : Node} (hc : t'.findNode? k = some c) : c = new := by
    rw [hb', Option.some.injEq] at hc
    exact hc.symm
  have hsame {n : Node} : FileOf t' p n ↔ FileOf t p n := by
    have hno : ¬ FileOf t p old := fun hfile => hk (hkold ▸ hfile.type)
    rw [hfiles]
    constructor
    · rintro (⟨-, hn⟩ | ⟨-, hn⟩)
      · exact absurd hn hno
      · exact hn
    · intro hn
      refine .inr ⟨fun he => hno ?_, hn⟩
      have := hn.stored
      rw [he, hid, ho, Option.some.injEq] at this
      exact this ▸ hn
  have hversion {s name : String} (hs : (s, name) ∈ pointers t old.id) :
      versionIn t' s name = versionIn t s name := by
    obtain ⟨n, hn, rfl⟩ := h.file hb hs
    rw [versionIn, versionIn, (hsame.mpr hn).stored, hn.stored]
  refine ⟨⟨⟨mem_keys_put hput h.project, fun hn => h.sheet (hsame.mp hn),
    fun hn hs name => ?_, fun hc hp => ?_, fun hc => ?_⟩, fun hc => ?_⟩, hb'⟩
  · rw [h.points (hsame.mp hn) hs name]
    constructor
    · rintro ⟨c, hc, hp⟩
      rw [hb, Option.some.injEq] at hc
      exact ⟨new, hb', by rw [hps, hc]; exact hp⟩
    · rintro ⟨c, hc, hp⟩
      exact ⟨old, hb, by rw [← hps, ← only hc]; exact hp⟩
  · rw [only hc, hps] at hp
    obtain ⟨n, hn, hs⟩ := h.file hb hp
    exact ⟨n, hsame.mpr hn, hs⟩
  · rw [only hc]
    exact ⟨_, htexts, proper_union, Text.sortByKey_sortByKey _⟩
  · rw [only hc, htexts, hps, union, union, said_congr fun q hq => (hversion hq).symm]

end

/-! ## Deleting a file -/

/-- The pointers of what is gone are gone. -/
theorem pointers_clears {gone : List String} (h : Tables.Clears t gone gone t')
    (hf : t.WellFormed) (hf' : t'.WellFormed) (hmid : mid ∉ gone) :
    pointers t' mid = (pointers t mid).filter fun q => q.1 ∉ gone := by
  rw [pointers, pointers, List.filter_map]
  congr 1
  rw [Tables.edgesTo, Tables.edgesTo, Tables.allEdges, Tables.allEdges, h.edges_eq hf hf',
    List.filter_map, List.filter_map, List.filter_map, List.filter_filter, List.filter_filter]
  congr 1
  refine List.filter_congr fun e _ => ?_
  rw [Bool.eq_iff_iff]
  simp only [Function.comp_apply, Bool.and_eq_true, beq_iff_eq, decide_eq_true_eq]
  constructor
  · rintro ⟨ht, hs, -⟩
    exact ⟨hs, ht⟩
  · rintro ⟨hs, ht⟩
    exact ⟨ht, hs, ht.1 ▸ hmid⟩

/-- A file goes with all that is below it, and the other entries agree as before. -/
theorem Entries.clears (h : Entries p k t) (hf : t.WellFormed) (hf' : t'.WellFormed)
    (hk : ¬ k.type.IsFile) (hparent : k.parent = some p.id) {id : String}
    (hfile : ∀ {n}, t.node? id = some n → FileOf t p n) (hgone : Tables.Fells t id t') :
    Entries p k t' := by
  obtain ⟨gone, hg, hid, hbelow⟩ := hgone
  have hproject : p.id ∉ gone := by
    have above {i : String} (hi : i ∈ keys t.nodes) (he : i = id) :
        Relation.TransGen t.IsParent p.id i := by
      obtain ⟨n, hn⟩ := Assoc.exists_get?_of_mem_keys hi
      have hni := hf.nodes.owned hn
      exact hni ▸ (hfile (he ▸ hn)).below
    intro hp
    rcases hbelow _ hp with he | hb
    · exact hf.acyclic _ (above h.project he)
    · exact hf.acyclic _ (.trans (above (Tables.mem_keys_of_transGen hf hb) rfl) hb)
  have hmanifest {b : Node} (hb : t.node? b.id = some b) (hbk : b.key = k) : b.id ∉ gone := by
    have hbp : b.parent = some p.id := (congrArg NodeKey.parent hbk).trans hparent
    have parent {a : String} (ha : t.IsParent a b.id) : a = p.id := by
      obtain ⟨c, hc, hcp⟩ := ha
      rw [hb, Option.some.injEq] at hc
      rw [← hc, hbp, Option.some.injEq] at hcp
      exact hcp.symm
    intro hbg
    rcases hbelow _ hbg with he | hbb
    · exact hk (hbk ▸ (hfile (he ▸ hb)).type)
    · cases hbb with
      | single hs => exact hproject (parent hs ▸ hid)
      | tail ha hs =>
          rw [parent hs] at ha
          obtain ⟨n, hn⟩ := Assoc.exists_get?_of_mem_keys (Tables.mem_keys_of_transGen hf ha)
          have hni := hf.nodes.owned hn
          exact hf.acyclic _ (.trans (hni ▸ (hfile hn).below) ha)
  have hfind : t'.findNode? k = t.findNode? k := by
    refine Option.ext fun m => ?_
    rw [Tables.findNode?_eq_some hf', Tables.findNode?_eq_some hf]
    constructor
    · rintro ⟨hm, hmk⟩
      exact ⟨(hg.node?_of_some hm).2, hmk⟩
    · rintro ⟨hm, hmk⟩
      exact ⟨by rw [hg.node?_eq, if_neg (hmanifest hm hmk)]; exact hm, hmk⟩
  have hps {b : Node} (hb : t.findNode? k = some b) :
      pointers t' b.id = (pointers t b.id).filter fun q => q.1 ∉ gone := by
    obtain ⟨hb, hbk⟩ := (Tables.findNode?_eq_some hf).mp hb
    exact pointers_clears hg hf hf' (hmanifest hb hbk)
  have old {n : Node} (hn : FileOf t' p n) : n.id ∉ gone ∧ FileOf t p n := by
    obtain ⟨hs, hty, hp⟩ := hn
    exact ⟨(hg.node?_of_some hs).1, (hg.node?_of_some hs).2, hty, hg.transGen hp⟩
  refine ⟨?_, fun hn => h.sheet (old hn).2, fun hn hs name => ?_, fun hb hp => ?_,
    fun hb => h.manifest (hfind ▸ hb)⟩
  · obtain ⟨q, hq⟩ := Assoc.exists_get?_of_mem_keys h.project
    refine Assoc.mem_keys_of_get? (v := q) ?_
    exact (hg.node?_eq _).trans ((if_neg hproject).trans hq)
  · obtain ⟨hng, hn⟩ := old hn
    rw [h.points hn hs name, hfind]
    refine exists_congr fun b => and_congr_right fun hb => ?_
    simp [hps hb, hng]
  · rename_i b s name
    rw [hfind] at hb
    obtain ⟨hp, hsg⟩ := List.mem_filter.mp (hps hb ▸ hp)
    obtain ⟨n, hn, rfl⟩ := h.file hb hp
    have hn' : t'.node? n.id = some n := by
      rw [hg.node?_eq, if_neg (by simpa using hsg)]
      exact hn.stored
    exact ⟨n, ⟨hn', hn.type, hg.transGen_of_left hf' (Assoc.mem_keys_of_get? hn') hn.below⟩, rfl⟩

end Manifest

end IntentBuild
