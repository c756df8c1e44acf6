import IntentBuild.Proofs.Assoc

/-!
# Tables with an index

A table keeps rows by identifier.  Its index gives the identifier of a row for the key of the row.
`Indexed` says that the two fit: every row stands under its own identifier, and the index is
exactly the inverse of the table.  It follows that no two rows have one key (`Indexed.unique`).
Inserting, replacing and erasing a row together with its key keep the two in step.
-/

namespace IntentBuild

/-- The rows of a list without those of some identifiers. -/
def sparing {α : Type} (id : α → String) (ids : List String) (l : List α) : List α :=
  l.filter fun a => id a ∉ ids

theorem sparing_nil {α : Type} (id : α → String) (l : List α) : sparing id [] l = l :=
  List.filter_eq_self.mpr fun _ _ => by simp

theorem erase_eq_sparing {α : Type} (i : String) (m : List (String × α)) :
    Assoc.erase i m = sparing Prod.fst [i] m := by
  simp [Assoc.erase, sparing]

theorem sparing_sparing {α : Type} (id : α → String) (ids ids' : List String) (l : List α) :
    sparing id ids' (sparing id ids l) = sparing id (ids ++ ids') l := by
  rw [sparing, sparing, List.filter_filter, sparing]
  refine List.filter_congr fun a _ => ?_
  rw [Bool.and_comm]
  simp

/-- An index that is exactly the inverse of its table. -/
structure Indexed {κ α : Type} [DecidableEq κ] (own : α → String) (key : α → κ)
    (table : List (String × α)) (index : List (κ × String)) : Prop where
  /-- No identifier repeats. -/
  proper : Assoc.Proper table
  /-- No key repeats. -/
  properIndex : Assoc.Proper index
  /-- A row stands under its own identifier. -/
  owned : ∀ {i a}, Assoc.get? i table = some a → own a = i
  /-- The index gives an identifier for a key exactly when the row there has the key. -/
  inverse : ∀ {k i}, Assoc.get? k index = some i ↔ ∃ a, Assoc.get? i table = some a ∧ key a = k

namespace Indexed

variable {κ α : Type} [DecidableEq κ] {own : α → String} {key : α → κ}
  {table : List (String × α)} {index : List (κ × String)}

theorem empty : Indexed own key [] [] where
  proper := Assoc.proper_nil
  properIndex := Assoc.proper_nil
  owned h := by simp at h
  inverse := by simp

theorem index_eq (h : Indexed own key table index) {i : String} {a : α}
    (ha : Assoc.get? i table = some a) : Assoc.get? (key a) index = some i :=
  h.inverse.mpr ⟨a, ha, rfl⟩

/-- Rows may be replaced by others with their identifiers and keys. -/
theorem mapValues {f : α → α} (h : Indexed own key table index) (ho : ∀ a, own (f a) = own a)
    (hk : ∀ a, key (f a) = key a) :
    Indexed own key (table.map fun e => (e.1, f e.2)) index where
  proper := by
    rw [Assoc.Proper, Assoc.keys_mapValues]
    exact h.proper
  properIndex := h.properIndex
  owned ha := by
    rw [Assoc.get?_mapValues] at ha
    obtain ⟨b, hb, rfl⟩ := Option.map_eq_some_iff.mp ha
    rw [ho, h.owned hb]
  inverse {k i} := by
    rw [h.inverse, Assoc.get?_mapValues]
    constructor
    · rintro ⟨a, ha, rfl⟩
      exact ⟨f a, by rw [ha]; rfl, hk a⟩
    · rintro ⟨_, hb, rfl⟩
      obtain ⟨a, ha, rfl⟩ := Option.map_eq_some_iff.mp hb
      exact ⟨a, ha, (hk a).symm⟩

/-- No two rows have one key. -/
theorem unique (h : Indexed own key table index) {i j : String} {a b : α}
    (ha : Assoc.get? i table = some a) (hb : Assoc.get? j table = some b)
    (hk : key a = key b) : i = j := by
  have hi := h.index_eq ha
  rw [hk, h.index_eq hb, Option.some.injEq] at hi
  exact hi.symm

/-- A new row with a new identifier and a new key. -/
theorem insert (h : Indexed own key table index) {a : α}
    (hi : own a ∉ Assoc.keys table) (hk : key a ∉ Assoc.keys index) :
    Indexed own key (Assoc.set (own a) a table) (Assoc.set (key a) (own a) index) where
  proper := Assoc.proper_set h.proper _ _
  properIndex := Assoc.proper_set h.properIndex _ _
  owned {i b} hb := by
    rw [Assoc.get?_set] at hb
    split at hb
    · rw [Option.some.injEq] at hb; subst hb; exact Eq.symm ‹_›
    · exact h.owned hb
  inverse {k i} := by
    rw [Assoc.get?_set]
    by_cases hka : k = key a
    · rw [if_pos hka, Option.some.injEq]
      constructor
      · rintro rfl
        exact ⟨a, Assoc.get?_set_same .., hka.symm⟩
      · rintro ⟨b, hb, hkb⟩
        rw [Assoc.get?_set] at hb
        split at hb
        · exact Eq.symm ‹_›
        · have := h.inverse.mpr ⟨b, hb, hkb.trans hka⟩
          exact absurd (Assoc.mem_keys_of_get? this) hk
    · rw [if_neg hka, h.inverse]
      constructor
      · rintro ⟨b, hb, hkb⟩
        have hne : i ≠ own a := fun he => hi (he ▸ Assoc.mem_keys_of_get? hb)
        exact ⟨b, by rw [Assoc.get?_set_other hne]; exact hb, hkb⟩
      · rintro ⟨b, hb, hkb⟩
        rw [Assoc.get?_set] at hb
        split at hb
        · rw [Option.some.injEq] at hb
          subst hb
          exact absurd hkb.symm hka
        · exact ⟨b, hb, hkb⟩

/-- A row in place of one with its identifier and its key. -/
theorem replace (h : Indexed own key table index) {i : String} {a b : α}
    (hb : Assoc.get? i table = some b) (ha : own a = i) (hk : key a = key b) :
    Indexed own key (Assoc.set i a table) index where
  proper := Assoc.proper_set h.proper _ _
  properIndex := h.properIndex
  owned {j c} hc := by
    rw [Assoc.get?_set] at hc
    split at hc
    · rw [Option.some.injEq] at hc; subst hc; exact ha.trans (Eq.symm ‹_›)
    · exact h.owned hc
  inverse {k j} := by
    rw [h.inverse]
    by_cases hj : j = i
    · subst hj
      rw [Assoc.get?_set_same]
      constructor
      · rintro ⟨c, hc, hkc⟩
        rw [hb, Option.some.injEq] at hc
        exact ⟨a, rfl, by rw [hk, hc]; exact hkc⟩
      · rintro ⟨c, hc, hkc⟩
        rw [Option.some.injEq] at hc
        exact ⟨b, hb, by rw [← hk, hc]; exact hkc⟩
    · rw [Assoc.get?_set_other hj]

/-- A row that goes with its key. -/
theorem erase (h : Indexed own key table index) {i : String} {a : α}
    (ha : Assoc.get? i table = some a) :
    Indexed own key (Assoc.erase i table) (Assoc.erase (key a) index) where
  proper := Assoc.proper_erase h.proper _
  properIndex := Assoc.proper_erase h.properIndex _
  owned {j c} hc := by
    rw [Assoc.get?_erase] at hc
    split at hc
    · cases hc
    · exact h.owned hc
  inverse {k j} := by
    rw [Assoc.get?_erase, Assoc.get?_erase]
    by_cases hk : k = key a
    · rw [if_pos hk]
      constructor
      · intro hn; cases hn
      · rintro ⟨c, hc, hkc⟩
        split at hc
        · cases hc
        · exact absurd (h.unique hc ha (hkc.trans hk)) ‹_›
    · rw [if_neg hk, h.inverse]
      by_cases hj : j = i
      · subst hj
        rw [if_pos rfl]
        constructor
        · rintro ⟨c, hc, hkc⟩
          rw [ha, Option.some.injEq] at hc
          exact absurd (hkc.symm.trans (congrArg key hc.symm)) hk
        · rintro ⟨c, hc, _⟩; cases hc
      · rw [if_neg hj]

/-- An entry of the index belongs to a row. -/
theorem row_of_mem (h : Indexed own key table index) {e : κ × String} (he : e ∈ index) :
    ∃ a, Assoc.get? e.2 table = some a ∧ key a = e.1 :=
  h.inverse.mp (Assoc.get?_of_mem h.properIndex he)

/-- Erasing the key of a row is erasing its identifier. -/
theorem erase_key (h : Indexed own key table index) {i : String} {a : α}
    (ha : Assoc.get? i table = some a) : Assoc.erase (key a) index = sparing Prod.snd [i] index := by
  refine List.filter_congr fun e he => ?_
  obtain ⟨b, hb, hk⟩ := h.row_of_mem he
  rw [decide_eq_decide, List.mem_singleton, ← hk]
  refine not_congr ⟨fun hk => h.unique hb ha hk, fun hi => ?_⟩
  rw [hi, ha, Option.some.injEq] at hb
  rw [hb]

/-- An identifier without a row is not in the index either. -/
theorem sparing_absent (h : Indexed own key table index) {i : String}
    (ha : Assoc.get? i table = none) :
    sparing Prod.fst [i] table = table ∧ sparing Prod.snd [i] index = index := by
  have hne {j : String} {a : α} (hj : Assoc.get? j table = some a) : j ∉ [i] := by
    rw [List.mem_singleton]
    rintro rfl
    rw [ha] at hj
    cases hj
  refine ⟨List.filter_eq_self.mpr fun e he => decide_eq_true ?_,
    List.filter_eq_self.mpr fun e he => decide_eq_true ?_⟩
  · exact hne (Assoc.get?_of_mem h.proper he)
  · obtain ⟨b, hb, -⟩ := h.row_of_mem he
    exact hne hb

end Indexed

end IntentBuild
