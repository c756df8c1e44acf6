import IntentBuild.Assoc

/-!
# Laws of ordered maps

The keys of a map, and what setting and erasing a key do to them, to the entries and to the
values.  A map is *proper* when no key repeats.  Setting and erasing keep a map proper, and in a
proper map an entry is the same as a value at a key (`get?_eq_some_iff`).
-/

namespace IntentBuild.Assoc

variable {κ α : Type}

/-- The keys of a map, in order. -/
def keys (m : List (κ × α)) : List κ := m.map Prod.fst

/-- No key repeats. -/
def Proper (m : List (κ × α)) : Prop := (keys m).Nodup

@[simp] theorem keys_nil : keys ([] : List (κ × α)) = [] := rfl

@[simp] theorem keys_cons (e : κ × α) (m : List (κ × α)) : keys (e :: m) = e.1 :: keys m := rfl

@[simp] theorem keys_append (m m' : List (κ × α)) : keys (m ++ m') = keys m ++ keys m' :=
  List.map_append

@[simp] theorem keys_mapValues {β : Type} (f : α → β) (m : List (κ × α)) :
    keys (m.map fun e => (e.1, f e.2)) = keys m := by
  simp [keys]

theorem mem_keys_of_mem {e : κ × α} {m : List (κ × α)} (h : e ∈ m) : e.1 ∈ keys m :=
  List.mem_map_of_mem h

theorem proper_nil : Proper ([] : List (κ × α)) := List.nodup_nil

theorem proper_cons {e : κ × α} {m : List (κ × α)} :
    Proper (e :: m) ↔ e.1 ∉ keys m ∧ Proper m := List.nodup_cons

variable [DecidableEq κ]

/-! ## Values and entries -/

theorem get?_cons_same (k : κ) (v : α) (m : List (κ × α)) : get? k ((k, v) :: m) = some v := by
  simp [get?]

theorem get?_cons_other {k k' : κ} (h : k' ≠ k) (v : α) (m : List (κ × α)) :
    get? k ((k', v) :: m) = get? k m := by simp [get?, h]

theorem get?_eq_none_iff {k : κ} {m : List (κ × α)} : get? k m = none ↔ k ∉ keys m := by
  induction m with
  | nil => simp
  | cons e m ih =>
      obtain ⟨k', v⟩ := e
      by_cases h : k' = k
      · subst h; simp [get?]
      · simp [get?, h, ih, Ne.symm h]

theorem has_iff {k : κ} {m : List (κ × α)} : has k m = true ↔ k ∈ keys m := by
  rw [has, Option.isSome_iff_ne_none, ne_eq, get?_eq_none_iff, Classical.not_not]

theorem has_eq_false_iff {k : κ} {m : List (κ × α)} : has k m = false ↔ k ∉ keys m := by
  rw [← has_iff, Bool.not_eq_true]

theorem mem_of_get? {k : κ} {v : α} {m : List (κ × α)} (h : get? k m = some v) : (k, v) ∈ m := by
  induction m with
  | nil => simp at h
  | cons e m ih =>
      obtain ⟨k', v'⟩ := e
      by_cases hk : k' = k
      · subst hk
        rw [get?_cons_same, Option.some.injEq] at h
        exact h ▸ List.mem_cons_self ..
      · rw [get?_cons_other hk] at h
        exact List.mem_cons_of_mem _ (ih h)

theorem mem_keys_of_get? {k : κ} {v : α} {m : List (κ × α)} (h : get? k m = some v) :
    k ∈ keys m := mem_keys_of_mem (mem_of_get? h)

/-- In a proper map an entry is a value at its key. -/
theorem get?_of_mem {k : κ} {v : α} {m : List (κ × α)} (hm : Proper m) (h : (k, v) ∈ m) :
    get? k m = some v := by
  induction m with
  | nil => cases h
  | cons e m ih =>
      obtain ⟨k', v'⟩ := e
      obtain ⟨hk', hm'⟩ := proper_cons.mp hm
      cases List.mem_cons.mp h with
      | inl he => cases he; exact get?_cons_same ..
      | inr ht =>
          have hk : k ∈ keys m := mem_keys_of_mem ht
          have hne : k' ≠ k := fun he => hk' (he ▸ hk)
          rw [get?_cons_other hne]
          exact ih hm' ht

theorem get?_eq_some_iff {k : κ} {v : α} {m : List (κ × α)} (hm : Proper m) :
    get? k m = some v ↔ (k, v) ∈ m := ⟨mem_of_get?, get?_of_mem hm⟩

theorem exists_get?_of_mem_keys {k : κ} {m : List (κ × α)} (h : k ∈ keys m) :
    ∃ v, get? k m = some v := by
  cases hg : get? k m with
  | none => exact absurd h (get?_eq_none_iff.mp hg)
  | some v => exact ⟨v, rfl⟩

theorem get?_mapValues {β : Type} (f : α → β) (k : κ) (m : List (κ × α)) :
    get? k (m.map fun e => (e.1, f e.2)) = (get? k m).map f := by
  induction m with
  | nil => rfl
  | cons e m ih =>
      obtain ⟨k', v⟩ := e
      by_cases h : k' = k <;> simp [get?, h, ih]

/-! ## Setting a key -/

/-- A new key goes to the end. -/
theorem set_of_not_mem {k : κ} {m : List (κ × α)} (h : k ∉ keys m) (v : α) :
    set k v m = m ++ [(k, v)] := by
  induction m with
  | nil => rfl
  | cons e m ih =>
      rw [keys_cons, List.mem_cons, not_or] at h
      rw [set, if_neg (Ne.symm h.1), ih h.2, List.cons_append]

/-- A key that is there keeps its place. -/
theorem keys_set_of_mem {k : κ} {m : List (κ × α)} (h : k ∈ keys m) (v : α) :
    keys (set k v m) = keys m := by
  induction m with
  | nil => cases h
  | cons e m ih =>
      obtain ⟨k', v'⟩ := e
      by_cases hk : k' = k
      · simp [set, hk]
      · have hm : k ∈ keys m := (List.mem_cons.mp h).resolve_left (Ne.symm hk)
        simp [set, hk, ih hm]

theorem mem_keys_set {k k' : κ} {v : α} {m : List (κ × α)} :
    k' ∈ keys (set k v m) ↔ k' = k ∨ k' ∈ keys m := by
  by_cases h : k ∈ keys m
  · rw [keys_set_of_mem h]
    exact ⟨Or.inr, fun hk => hk.elim (fun he => he ▸ h) (fun hm => hm)⟩
  · rw [set_of_not_mem h]
    simp [or_comm]

theorem proper_set {m : List (κ × α)} (hm : Proper m) (k : κ) (v : α) : Proper (set k v m) := by
  by_cases h : k ∈ keys m
  · rw [Proper, keys_set_of_mem h]; exact hm
  · rw [Proper, set_of_not_mem h, keys_append]
    refine List.nodup_append.mpr ⟨hm, by simp, fun a ha b hb => ?_⟩
    rw [keys_cons, keys_nil, List.mem_singleton] at hb
    intro he
    rw [he, hb] at ha
    exact h ha

theorem get?_set {k k' : κ} (v : α) (m : List (κ × α)) :
    get? k' (set k v m) = if k' = k then some v else get? k' m := by
  by_cases h : k' = k
  · rw [if_pos h, h]; exact get?_set_same ..
  · rw [if_neg h]; exact get?_set_other h ..

/-- Setting the value that is there changes nothing. -/
theorem set_of_get? {k : κ} {v : α} {m : List (κ × α)} (h : get? k m = some v) :
    set k v m = m := by
  induction m with
  | nil => simp at h
  | cons e m ih =>
      obtain ⟨k', v'⟩ := e
      by_cases hk : k' = k
      · subst hk
        rw [get?_cons_same, Option.some.injEq] at h
        simp [set, h]
      · rw [get?_cons_other hk] at h
        simp [set, hk, ih h]

/-- Only the last value that a key was set to counts. -/
theorem set_set (k : κ) (v v' : α) (m : List (κ × α)) : set k v (set k v' m) = set k v m := by
  induction m with
  | nil => simp [set]
  | cons e m ih =>
      obtain ⟨k', v₀⟩ := e
      by_cases hk : k' = k
      · simp [set, hk]
      · simp [set, hk, ih]

/-- What is made of the other entries does not see the key. -/
theorem filterMap_set {β : Type} {g : κ × α → Option β} {k : κ}
    (hg : ∀ v, g (k, v) = none) (v : α) (m : List (κ × α)) :
    (set k v m).filterMap g = m.filterMap g := by
  induction m with
  | nil => simp [set, hg]
  | cons e m ih =>
      obtain ⟨k', v'⟩ := e
      rw [set]
      split
      · rename_i hk
        subst hk
        rw [List.filterMap_cons, List.filterMap_cons, hg, hg]
      · rw [List.filterMap_cons, List.filterMap_cons, ih]

/-- The entries of a map after a key was set. -/
theorem mem_set {k : κ} {v : α} {m : List (κ × α)} (hm : Proper m) {e : κ × α} :
    e ∈ set k v m ↔ e = (k, v) ∨ (e ∈ m ∧ e.1 ≠ k) := by
  obtain ⟨k', v'⟩ := e
  rw [← get?_eq_some_iff (proper_set hm k v), get?_set, ← get?_eq_some_iff hm]
  by_cases h : k' = k
  · simp [h, eq_comm]
  · simp [h]

/-- A proper map is the map of its own entries. -/
theorem ofEntries_of_proper {m : List (κ × α)} (h : Proper m) : ofEntries m = m := by
  have fold (m acc : List (κ × α)) (h : Proper (acc ++ m)) :
      m.foldl (fun m e => set e.1 e.2 m) acc = acc ++ m := by
    induction m generalizing acc with
    | nil => simp
    | cons e m ih =>
        have hnot : e.1 ∉ keys acc := fun hk => by
          rw [Proper, keys_append, keys_cons] at h
          exact (List.nodup_append.mp h).2.2 _ hk _ (.head _) rfl
        rw [List.foldl_cons, set_of_not_mem hnot, ih _ (by simpa using h)]
        simp
  simpa [ofEntries] using fold m [] h

/-! ## Erasing a key -/

theorem keys_erase (k : κ) (m : List (κ × α)) : keys (erase k m) = (keys m).filter (· ≠ k) := by
  simp [keys, erase, List.filter_map, Function.comp_def]

theorem mem_keys_erase {k k' : κ} {m : List (κ × α)} :
    k' ∈ keys (erase k m) ↔ k' ∈ keys m ∧ k' ≠ k := by
  simp [keys_erase]

theorem proper_erase {m : List (κ × α)} (hm : Proper m) (k : κ) : Proper (erase k m) := by
  rw [Proper, keys_erase]; exact hm.filter _

theorem get?_erase_same (k : κ) (m : List (κ × α)) : get? k (erase k m) = none := by
  rw [get?_eq_none_iff, mem_keys_erase]; exact fun h => h.2 rfl

theorem get?_erase_other {k k' : κ} (h : k' ≠ k) (m : List (κ × α)) :
    get? k' (erase k m) = get? k' m := by
  induction m with
  | nil => rfl
  | cons e m ih =>
      obtain ⟨k'', v⟩ := e
      by_cases hk : k'' = k
      · have he : erase k ((k'', v) :: m) = erase k m := by simp [erase, hk]
        rw [he, ih, get?_cons_other (fun he => h (he.symm.trans hk))]
      · have he : erase k ((k'', v) :: m) = (k'', v) :: erase k m := by simp [erase, hk]
        rw [he]
        by_cases hk' : k'' = k'
        · simp [get?, hk']
        · rw [get?_cons_other hk', get?_cons_other hk', ih]

theorem get?_erase {k k' : κ} (m : List (κ × α)) :
    get? k' (erase k m) = if k' = k then none else get? k' m := by
  by_cases h : k' = k
  · rw [if_pos h, h]; exact get?_erase_same ..
  · rw [if_neg h]; exact get?_erase_other h ..

/-! ## Filtering -/

/-- Entries that go by their keys. -/
theorem get?_filter_key (p : κ → Bool) (k : κ) (m : List (κ × α)) :
    get? k (m.filter fun e => p e.1) = if p k then get? k m else none := by
  induction m with
  | nil => simp
  | cons e m ih =>
      obtain ⟨k', v⟩ := e
      by_cases hk : k' = k
      · subst hk
        by_cases hp : p k' = true <;> simp [hp, ih, get?]
      · by_cases hp : p k' = true <;> simp [hp, ih, get?, hk]

/-! ## Equal maps -/

/-- Maps that are the same have the same values. -/
theorem get?_of_same [DecidableEq α] {m m' : List (κ × α)} (hm : Proper m)
    (h : same m m' = true) (k : κ) : get? k m = get? k m' := by
  rw [same, Bool.and_eq_true, beq_iff_eq, List.all_eq_true] at h
  obtain ⟨hlen, hall⟩ := h
  have sub {k : κ} {v : α} (hk : get? k m = some v) : get? k m' = some v := by
    simpa using hall _ (mem_of_get? hk)
  cases hk : get? k m with
  | some v => exact (sub hk).symm
  | none =>
      -- A key more on the other side would make that map longer.
      refine (get?_eq_none_iff.mpr fun hk' => ?_).symm
      have hnodup : (k :: keys m).Nodup := List.nodup_cons.mpr ⟨get?_eq_none_iff.mp hk, hm⟩
      have hle : (k :: keys m).length ≤ (keys m').length := by
        refine hnodup.length_le_of_subset fun j hj => ?_
        rcases List.mem_cons.mp hj with rfl | hj
        · exact hk'
        · obtain ⟨v, hv⟩ := exists_get?_of_mem_keys hj
          exact mem_keys_of_get? (sub hv)
      rw [List.length_cons, keys, keys, List.length_map, List.length_map] at hle
      omega

/-- Proper maps are the same just when they have the same values. -/
theorem same_iff [DecidableEq α] {m m' : List (κ × α)} (hm : Proper m) (hm' : Proper m') :
    same m m' = true ↔ ∀ k, get? k m = get? k m' := by
  refine ⟨get?_of_same hm, fun h => ?_⟩
  have sub {m m' : List (κ × α)} (hm : Proper m) (h : ∀ k, get? k m = get? k m') :
      m.length ≤ m'.length := by
    have hle : (keys m).length ≤ (keys m').length := by
      refine List.Nodup.length_le_of_subset hm fun k hk => ?_
      obtain ⟨v, hv⟩ := exists_get?_of_mem_keys hk
      exact mem_keys_of_get? ((h k).symm.trans hv)
    simpa [keys] using hle
  rw [same, Bool.and_eq_true, beq_iff_eq, List.all_eq_true]
  refine ⟨Nat.le_antisymm (sub hm h) (sub hm' fun k => (h k).symm), fun e he => ?_⟩
  rw [beq_iff_eq, ← h]
  exact get?_of_mem hm he

omit [DecidableEq κ] in
/-- The entries of a proper map do not repeat. -/
theorem nodup_of_proper {m : List (κ × α)} (hm : Proper m) : m.Nodup :=
  List.Pairwise.of_map Prod.fst (fun _ _ h he => h (congrArg Prod.fst he)) hm

/-- In a proper map entries with the same key are the same. -/
theorem eq_of_key_eq {m : List (κ × α)} (hm : Proper m) {a b : κ × α} (ha : a ∈ m) (hb : b ∈ m)
    (h : a.1 = b.1) : a = b := by
  obtain ⟨k, v⟩ := a
  obtain ⟨k', v'⟩ := b
  obtain rfl : k = k' := h
  have hv := get?_of_mem hm ha
  rw [get?_of_mem hm hb, Option.some.injEq] at hv
  rw [hv]

/-- Proper maps have the same values just when they have the same entries, in any order. -/
theorem perm_iff {m m' : List (κ × α)} (hm : Proper m) (hm' : Proper m') :
    m.Perm m' ↔ ∀ k, get? k m = get? k m' := by
  rw [List.perm_ext_iff_of_nodup (nodup_of_proper hm) (nodup_of_proper hm')]
  refine ⟨fun h k => Option.ext fun v => ?_, fun h e => ?_⟩
  · rw [get?_eq_some_iff hm, get?_eq_some_iff hm', h]
  · rw [← get?_eq_some_iff hm, ← get?_eq_some_iff hm', h]

/-- Sameness goes on from map to map. -/
theorem same_trans [DecidableEq α] {m m' m'' : List (κ × α)} (h : same m m' = true)
    (h' : same m' m'' = true) : same m m'' = true := by
  rw [same, Bool.and_eq_true, beq_iff_eq, List.all_eq_true] at *
  refine ⟨h.1.trans h'.1, fun e he => h'.2 (e.1, e.2) (mem_of_get? ?_)⟩
  simpa using h.2 e he

theorem same_self [DecidableEq α] {m : List (κ × α)} (hm : Proper m) : same m m = true := by
  rw [same, Bool.and_eq_true, List.all_eq_true]
  exact ⟨by simp, fun e he => by simpa using get?_of_mem hm he⟩

end IntentBuild.Assoc
