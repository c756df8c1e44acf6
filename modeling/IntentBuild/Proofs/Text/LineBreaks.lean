import IntentBuild.Text.Search

/-!
# Line breaks

A text without carriage returns keeps its line breaks when they are written as `\n`, and after
that no carriage return is left.
-/

namespace IntentBuild.Text

theorem unifyBreaks_eq {cs : List Char} (h : '\r' ∉ cs) : unifyBreaks cs = cs := by
  induction cs with
  | nil => rfl
  | cons c cs ih =>
      rw [List.mem_cons, not_or] at h
      rw [unifyBreaks, ih h.2]
      · rintro _ rfl -
        exact h.1 rfl
      · rintro rfl
        exact h.1 rfl

theorem return_not_mem_unifyBreaks (cs : List Char) : '\r' ∉ unifyBreaks cs := by
  fun_induction unifyBreaks cs with
  | case1 => simp
  | case2 cs ih => simp [ih]
  | case3 cs _ ih => simp [ih]
  | case4 c cs _ hc ih => simp [ih, Ne.symm hc]

theorem unifyLineBreaks_eq {s : String} (h : '\r' ∉ s.toList) : unifyLineBreaks s = s := by
  rw [unifyLineBreaks, unifyBreaks_eq h, String.ofList_toList]

theorem return_not_mem_unifyLineBreaks (s : String) : '\r' ∉ (unifyLineBreaks s).toList := by
  rw [unifyLineBreaks, String.toList_ofList]
  exact return_not_mem_unifyBreaks _

end IntentBuild.Text
