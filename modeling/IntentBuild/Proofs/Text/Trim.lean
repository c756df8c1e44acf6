import IntentBuild.Text.Blank
import Mathlib.Data.List.Basic
import Mathlib.Data.List.TakeWhile

/-!
# Trimmed texts

Trimming takes characters from both ends only, up to the first that is not of the class
(`trimBothBy_surrounded`).  A trimmed text is trimmed already, and it has ink if the text had any.
-/

namespace IntentBuild.Text

variable {b : Char → Bool} {p s q : List Char}

/-- The first character that is left is not of the class. -/
theorem head?_dropWhile (cs : List Char) : ∀ c ∈ (cs.dropWhile b).head?, b c = false := by
  intro c hc
  have hhead := List.head?_dropWhile_not b cs
  rw [hc] at hhead
  exact hhead

/-- What is not of the class is left. -/
theorem mem_dropWhile {c : Char} (hc : c ∈ s) (hb : b c = false) : c ∈ s.dropWhile b := by
  rw [← List.takeWhile_append_dropWhile (p := b) (l := s)] at hc
  rcases List.mem_append.mp hc with h | h
  · exact absurd (List.all_eq_true.mp List.all_takeWhile c h) (by simp [hb])
  · exact h

theorem dropWhile_eq (h : ∀ c ∈ s.head?, b c = false) : s.dropWhile b = s := by
  cases s with
  | nil => rfl
  | cons c s => exact List.dropWhile_cons_of_neg (by simp [h c rfl])

/-- A row whose first character is not of the class stays whole behind another. -/
theorem dropWhile_append_eq (h : ∀ c ∈ s.head?, b c = false) :
    (p ++ s).dropWhile b = p.dropWhile b ++ s := by
  rw [List.dropWhile_append]
  split
  · rename_i hnil
    rw [dropWhile_eq h, List.isEmpty_iff.mp hnil, List.nil_append]
  · rfl

/-- A row whose ends are not of the class stays whole, and around it only the outer ends go. -/
theorem trimBothBy_surrounded (hfirst : ∀ c ∈ s.head?, b c = false)
    (hlast : ∀ c ∈ s.getLast?, b c = false) (hs : s ≠ []) :
    trimBothBy b (p ++ s ++ q) = p.dropWhile b ++ s ++ (q.reverse.dropWhile b).reverse := by
  have hhead : ∀ c ∈ (s ++ q).head?, b c = false := by
    rw [List.head?_append_of_ne_nil s hs]
    exact hfirst
  have htail : ∀ c ∈ (s.reverse ++ (p.dropWhile b).reverse).head?, b c = false := by
    rw [List.head?_append_of_ne_nil _ (by simpa using hs), List.head?_reverse]
    exact hlast
  rw [trimBothBy, List.append_assoc, dropWhile_append_eq hhead, List.reverse_append,
    List.reverse_append, List.append_assoc, dropWhile_append_eq htail, List.reverse_append,
    List.reverse_append, List.reverse_reverse, List.reverse_reverse]

/-- A trimmed row is trimmed already. -/
theorem trimBothBy_trimBothBy (cs : List Char) :
    trimBothBy b (trimBothBy b cs) = trimBothBy b cs := by
  by_cases hnil : trimBothBy b cs = []
  · rw [hnil]
    rfl
  · have hlast : ∀ c ∈ (trimBothBy b cs).getLast?, b c = false := by
      rw [trimBothBy, List.getLast?_reverse]
      exact head?_dropWhile _
    have hfirst : ∀ c ∈ (trimBothBy b cs).head?, b c = false := by
      obtain ⟨tail, htail⟩ := List.dropWhile_suffix b (l := (cs.dropWhile b).reverse)
      have hcs : trimBothBy b cs ++ tail.reverse = cs.dropWhile b := by
        rw [trimBothBy, ← List.reverse_append, htail, List.reverse_reverse]
      have hhead := head?_dropWhile (b := b) cs
      rw [← hcs, List.head?_append_of_ne_nil _ hnil] at hhead
      exact hhead
    have h := trimBothBy_surrounded (p := []) (q := []) hfirst hlast hnil
    rwa [List.nil_append, List.append_nil, List.reverse_nil, List.dropWhile_nil, List.reverse_nil,
      List.nil_append, List.append_nil] at h

theorem trim_trim (s : String) : trim (trim s) = trim s := by
  rw [trim, trim, String.toList_ofList, trimBothBy_trimBothBy]

theorem hasInk_eq_false {t : String} : hasInk t = false ↔ ∀ c ∈ t.toList, isBlank c = true := by
  simp [hasInk]

/-- Trimming takes no ink. -/
theorem hasInk_trim {s : String} (h : hasInk s = true) : hasInk (trim s) = true := by
  obtain ⟨c, hc, hink⟩ := List.any_eq_true.mp h
  rw [Bool.not_eq_true'] at hink
  refine List.any_eq_true.mpr ⟨c, ?_, by rw [hink]; rfl⟩
  rw [trim, String.toList_ofList, trimBothBy, List.mem_reverse]
  exact mem_dropWhile (List.mem_reverse.mpr (mem_dropWhile hc hink)) hink

end IntentBuild.Text
