import IntentBuild.Proofs.Text.Order
import IntentBuild.Version.Range

/-!
# The order of versions

Versions compare part by part, so their comparison is transitive and oriented.  On readable ranges
`isHigher` is therefore a strict weak order: irreflexive (`isHigher_irrefl`), transitive
(`isHigher_trans`), and what is not higher than a range is not higher than a higher one
(`isHigher_of_not`).
-/

namespace IntentBuild

open Std Text

namespace Identifier

/-- A number for the kind of an identifier: numbers sort below words. -/
def kind : Identifier → Nat
  | .number _ => 0
  | .word _ => 1

/-- The value of a number. -/
def value : Identifier → Nat
  | .number n => n
  | .word _ => 0

/-- The characters of a word. -/
def wordCodes : Identifier → List Nat
  | .number _ => []
  | .word w => codes w

theorem compare_word (a b : String) :
    compare (.word a) (.word b) = List.compareLex Ord.compare (codes a) (codes b) := by
  rw [compare]
  split
  · rename_i h
    have hself : List.compareLex Ord.compare (codes b) (codes b) = .eq := ReflCmp.compare_self
    rw [h, hself]
  · rename_i h
    rw [charsLe_eq]
    cases hc : List.compareLex Ord.compare (codes a) (codes b) with
    | lt => rfl
    | eq => exact absurd (codes_injective (LawfulEqCmp.eq_of_compare hc)) h
    | gt => rfl

theorem compare_eq (a b : Identifier) :
    compare a b = compareLex (compareOn kind) (compareLex (compareOn value)
      (compareOn wordCodes)) a b := by
  cases a with
  | number m =>
      cases b with
      | number n =>
          show Ord.compare m n = Ordering.then .eq (Ordering.then (Ord.compare m n) .eq)
          cases Ord.compare m n <;> rfl
      | word b => rfl
  | word a =>
      cases b with
      | number n => rfl
      | word b =>
          rw [compare_word]
          rfl

instance : TransCmp compare where
  eq_swap {a b} := by
    rw [compare_eq, compare_eq]
    exact OrientedCmp.eq_swap
  isLE_trans {a b c} := by
    rw [compare_eq, compare_eq, compare_eq]
    exact TransCmp.isLE_trans

theorem compareLists_eq (a b : List Identifier) :
    compareLists a b = List.compareLex compare a b := by
  induction a generalizing b with
  | nil => cases b <;> rfl
  | cons x a ih =>
      cases b with
      | nil => rfl
      | cons y b => rw [compareLists, ih, List.compareLex_cons_cons]

end Identifier

namespace Version

/-- A release sorts above all pre-releases. -/
theorem comparePre_eq (a b : List Identifier) :
    comparePre a b = compareLex (compareOn List.isEmpty) (List.compareLex Identifier.compare) a b := by
  cases a <;> cases b <;> first | rfl | exact Identifier.compareLists_eq _ _

theorem compare_eq (v w : Version) :
    compare v w = compareLex (compareOn major) (compareLex (compareOn minor)
      (compareLex (compareOn patch) fun v w : Version =>
        compareLex (compareOn List.isEmpty) (List.compareLex Identifier.compare) v.pre w.pre)) v w := by
  rw [compare, comparePre_eq]
  rfl

instance : TransCmp fun v w : Version =>
    compareLex (compareOn List.isEmpty) (List.compareLex Identifier.compare) v.pre w.pre where
  eq_swap := OrientedCmp.eq_swap
  isLE_trans := TransCmp.isLE_trans

instance : TransCmp compare where
  eq_swap {v w} := by
    rw [compare_eq, compare_eq]
    exact OrientedCmp.eq_swap
  isLE_trans {u v w} := by
    rw [compare_eq, compare_eq, compare_eq]
    exact TransCmp.isLE_trans

theorem above_iff {v w : Version} : v.above w = true ↔ v.compare w = .gt := by
  rw [above, beq_iff_eq]

/-! ## Ranges -/

theorem isHigher_iff {s t : String} :
    isHigher s (some t) = true ↔
      ∃ v w, leastOf? s = some v ∧ leastOf? t = some w ∧ v.compare w = .gt := by
  unfold isHigher
  dsimp only
  generalize leastOf? s = a
  generalize leastOf? t = b
  cases a with
  | none => simp
  | some v =>
      cases b with
      | none => simp
      | some w => simp [above_iff]

theorem isHigher_irrefl (s : String) : isHigher s (some s) = false := by
  rw [Bool.eq_false_iff, ne_eq, isHigher_iff]
  rintro ⟨v, w, hv, hw, h⟩
  rw [hv, Option.some.injEq] at hw
  have hself : w.compare w = .eq := ReflCmp.compare_self
  rw [hw, hself] at h
  cases h

theorem isHigher_trans {s t u : String} (hst : isHigher s (some t) = true)
    (htu : isHigher t (some u) = true) : isHigher s (some u) = true := by
  rw [isHigher_iff] at *
  obtain ⟨a, b, ha, hb, hab⟩ := hst
  obtain ⟨b', c, hb', hc, hbc⟩ := htu
  rw [hb, Option.some.injEq] at hb'
  exact ⟨a, c, ha, hc, TransCmp.gt_trans hab (hb' ▸ hbc)⟩

/-- A range that is not higher than another is not higher than a higher one. -/
theorem isHigher_of_not {s t u : String} (hst : isHigher s (some t) = false)
    (hut : isHigher u (some t) = true) : isHigher s (some u) = false := by
  rw [Bool.eq_false_iff, ne_eq] at *
  exact fun hsu => hst (isHigher_trans hsu hut)

end Version

end IntentBuild
