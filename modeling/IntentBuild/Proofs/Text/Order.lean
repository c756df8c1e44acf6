import IntentBuild.Proofs.Assoc
import IntentBuild.Text.Search

/-!
# The order of texts

Texts compare by their characters, or by their UTF-16 units, and both orders are total, transitive and
antisymmetric (`isOrder_charsLe`, `isOrder_utf16Le`).  So a proper map has just one row of its entries in
ascending order of keys: `sortByKey_eq` says that maps with equal values have the same one.
-/

namespace IntentBuild.Text

open Assoc (keys Proper)

/-- The numbers of the characters of a text. -/
def codes (s : String) : List Nat := s.toList.map Char.toNat

theorem codes_injective {s t : String} (h : codes s = codes t) : s = t :=
  String.toList_inj.mp ((List.map_inj_right fun _ _ => Char.toNat_inj.mp).mp h)

theorem unitsLe_eq (a b : List Nat) : unitsLe a b = (List.compareLex compare a b).isLE := by
  induction a generalizing b with
  | nil => cases b <;> rfl
  | cons x a ih =>
      cases b with
      | nil => rfl
      | cons y b =>
          rw [List.compareLex_cons_cons, unitsLe, ih]
          rcases Nat.lt_trichotomy x y with h | h | h
          · simp [Nat.compare_eq_lt.mpr h, h]
          · subst h; simp
          · have : ¬ x < y := by omega
            have : x ≠ y := by omega
            simp [Nat.compare_eq_gt.mpr h, *]

/-- The order of texts is that of their rows of characters. -/
theorem charsLe_eq (s t : String) :
    charsLe s t = (List.compareLex compare (codes s) (codes t)).isLE := unitsLe_eq _ _

/-- A total order of texts. -/
structure IsOrder (le : String → String → Bool) : Prop where
  /-- What comes before a text comes before a later one. -/
  trans : ∀ {s t u}, le s t = true → le t u = true → le s u = true
  /-- Of two texts one comes before the other. -/
  total : ∀ s t, le s t = true ∨ le t s = true
  /-- Only equal texts come before each other. -/
  antisymm : ∀ {s t}, le s t = true → le t s = true → s = t

/-- Texts are put in order by numbers that tell them apart. -/
theorem isOrder_units {units : String → List Nat} (h : ∀ {s t}, units s = units t → s = t) :
    IsOrder fun s t => unitsLe (units s) (units t) where
  trans hst htu := by
    rw [unitsLe_eq] at *
    exact Std.TransCmp.isLE_trans hst htu
  total s t := by
    have hswap : List.compareLex compare (units t) (units s) =
        (List.compareLex compare (units s) (units t)).swap := Std.OrientedCmp.eq_swap
    rw [unitsLe_eq, unitsLe_eq, hswap]
    cases List.compareLex compare (units s) (units t) <;> simp
  antisymm hst hts := by
    rw [unitsLe_eq] at hst hts
    exact h (Std.LawfulEqCmp.eq_of_compare (Std.OrientedCmp.isLE_antisymm hst hts))

theorem isOrder_charsLe : IsOrder charsLe := isOrder_units codes_injective

theorem charsLe_trans {s t u : String} (h : charsLe s t = true) (h' : charsLe t u = true) :
    charsLe s u = true := isOrder_charsLe.trans h h'

theorem charsLe_total (s t : String) : charsLe s t = true ∨ charsLe t s = true :=
  isOrder_charsLe.total s t

theorem charsLe_antisymm {s t : String} (h : charsLe s t = true) (h' : charsLe t s = true) :
    s = t := isOrder_charsLe.antisymm h h'

/-! ## The order of UTF-16 units -/

/-- The first character of a text is known from the units. -/
theorem utf16Units_append_inj {c d : Char} {l l' : List Nat}
    (h : utf16Units c ++ l = utf16Units d ++ l') : c = d ∧ l = l' := by
  have hc : c.toNat < 0xD800 ∨ 0xDFFF < c.toNat ∧ c.toNat < 0x110000 := c.valid
  have hd : d.toNat < 0xD800 ∨ 0xDFFF < d.toNat ∧ d.toNat < 0x110000 := d.valid
  unfold utf16Units at h
  dsimp only at h
  -- a unit that is a character alone is no surrogate, so the two have equally many units
  split at h <;> split at h <;>
    simp only [List.cons_append, List.nil_append, List.cons.injEq] at h
  · exact ⟨Char.toNat_inj.mp h.1, h.2⟩
  · omega
  · omega
  · exact ⟨Char.toNat_inj.mp (by omega), h.2.2⟩

theorem utf16_injective {s t : String} (h : utf16 s = utf16 t) : s = t := by
  have units {c : Char} : utf16Units c ≠ [] := by
    unfold utf16Units
    dsimp only
    split <;> exact List.cons_ne_nil _ _
  have chars (cs ds : List Char) (h : cs.flatMap utf16Units = ds.flatMap utf16Units) : cs = ds := by
    induction cs generalizing ds with
    | nil =>
        cases ds with
        | nil => rfl
        | cons d ds => exact absurd (List.append_eq_nil_iff.mp h.symm).1 units
    | cons c cs ih =>
        cases ds with
        | nil => exact absurd (List.append_eq_nil_iff.mp h).1 units
        | cons d ds =>
            obtain ⟨rfl, hrest⟩ := utf16Units_append_inj h
            rw [ih ds hrest]
  exact String.toList_inj.mp (chars _ _ h)

theorem isOrder_utf16Le : IsOrder utf16Le := isOrder_units utf16_injective

/-! ## Maps in order -/

variable {α : Type}

/-- Maps of the same entries have the same row in order. -/
theorem IsOrder.sortMembers_eq {le : String → String → Bool} (hle : IsOrder le)
    {m m' : List (String × α)} (hm : Proper m) (h : m.Perm m') :
    Sorting.sort (fun a b => le a.1 b.1) m = Sorting.sort (fun a b => le a.1 b.1) m' := by
  refine Sorting.sort_eq_of_perm (fun a b c hab hbc => ?_) (fun a b => ?_) (fun a ha b hb hab hba => ?_) h
  · exact hle.trans hab hbc
  · exact hle.total a.1 b.1
  · exact Assoc.eq_of_key_eq hm ha hb (hle.antisymm hab hba)

theorem sortByKey_perm (m : List (String × α)) : (sortByKey m).Perm m := Sorting.sort_perm m

theorem pairwise_sortByKey (m : List (String × α)) :
    (sortByKey m).Pairwise fun a b => charsLe a.1 b.1 = true :=
  Sorting.pairwise_sort (fun a b c => @charsLe_trans a.1 b.1 c.1)
    (fun a b => charsLe_total a.1 b.1) m

theorem proper_sortByKey {m : List (String × α)} (hm : Proper m) : Proper (sortByKey m) :=
  ((sortByKey_perm m).map Prod.fst).nodup_iff.mpr hm

theorem keys_sortByKey_perm (m : List (String × α)) : (keys (sortByKey m)).Perm (keys m) :=
  (sortByKey_perm m).map Prod.fst

theorem mem_keys_sortByKey {k : String} {m : List (String × α)} :
    k ∈ keys (sortByKey m) ↔ k ∈ keys m := (keys_sortByKey_perm m).mem_iff

/-- Putting a proper map in order changes no value. -/
theorem get?_sortByKey {m : List (String × α)} (hm : Proper m) (k : String) :
    Assoc.get? k (sortByKey m) = Assoc.get? k m := by
  cases h : Assoc.get? k m with
  | none =>
      rw [Assoc.get?_eq_none_iff] at *
      rwa [mem_keys_sortByKey]
  | some v =>
      exact Assoc.get?_of_mem (proper_sortByKey hm)
        ((sortByKey_perm m).mem_iff.mpr (Assoc.mem_of_get? h))

/-- Proper maps with equal values have the same row of entries in order. -/
theorem sortByKey_eq {m m' : List (String × α)} (hm : Proper m) (hm' : Proper m')
    (h : ∀ k, Assoc.get? k m = Assoc.get? k m') : sortByKey m = sortByKey m' :=
  isOrder_charsLe.sortMembers_eq hm ((Assoc.perm_iff hm hm').mpr h)

theorem sortByKey_sortByKey (m : List (String × α)) : sortByKey (sortByKey m) = sortByKey m :=
  Sorting.sort_of_pairwise (pairwise_sortByKey m)

end IntentBuild.Text
