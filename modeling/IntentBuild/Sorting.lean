/-!
# Sorting

`sort le l` has the items of `l` in ascending order.  Items of which each may stand before the
other keep the order that they had.  The recursion follows the list, so that a closed row is sorted
by evaluation alone.
-/

namespace IntentBuild.Sorting

variable {α : Type} {le : α → α → Bool}

/-- Puts an item before the first one that it may stand before. -/
def insert (le : α → α → Bool) (a : α) : List α → List α
  | [] => [a]
  | b :: l => if le a b then a :: b :: l else b :: insert le a l

/-- The items in ascending order. -/
def sort (le : α → α → Bool) : List α → List α
  | [] => []
  | a :: l => insert le a (sort le l)

@[simp] theorem sort_nil : sort le [] = [] := rfl

theorem insert_perm (a : α) : ∀ l : List α, (insert le a l).Perm (a :: l)
  | [] => .refl _
  | b :: l => by
      rw [insert]
      split
      · exact .refl _
      · exact ((insert_perm a l).cons b).trans (.swap a b l)

theorem sort_perm : ∀ l : List α, (sort le l).Perm l
  | [] => .refl _
  | a :: l => (insert_perm a _).trans ((sort_perm l).cons a)

@[simp] theorem mem_sort {a : α} {l : List α} : a ∈ sort le l ↔ a ∈ l := (sort_perm l).mem_iff

theorem pairwise_insert (ht : ∀ a b c, le a b = true → le b c = true → le a c = true)
    (htotal : ∀ a b, le a b = true ∨ le b a = true) (a : α) {l : List α}
    (h : l.Pairwise fun a b => le a b = true) :
    (insert le a l).Pairwise fun a b => le a b = true := by
  induction l with
  | nil => exact List.pairwise_singleton _ _
  | cons b l ih =>
      obtain ⟨hb, hl⟩ := List.pairwise_cons.mp h
      rw [insert]
      split
      · rename_i hab
        refine .cons (fun c hc => ?_) h
        rcases List.mem_cons.mp hc with rfl | hc
        · exact hab
        · exact ht a b c hab (hb c hc)
      · rename_i hab
        refine .cons (fun c hc => ?_) (ih hl)
        rcases List.mem_cons.mp ((insert_perm a l).mem_iff.mp hc) with rfl | hc
        · exact (htotal c b).resolve_left hab
        · exact hb c hc

/-- The order of a sorted row, where the items can be put in order at all. -/
theorem pairwise_sort (ht : ∀ a b c, le a b = true → le b c = true → le a c = true)
    (htotal : ∀ a b, le a b = true ∨ le b a = true) :
    ∀ l : List α, (sort le l).Pairwise fun a b => le a b = true
  | [] => .nil
  | a :: l => pairwise_insert ht htotal a (pairwise_sort ht htotal l)

/-- A row in order is left alone. -/
theorem sort_of_pairwise : ∀ {l : List α}, (l.Pairwise fun a b => le a b = true) → sort le l = l
  | [], _ => rfl
  | a :: l, h => by
      obtain ⟨ha, hl⟩ := List.pairwise_cons.mp h
      rw [sort, sort_of_pairwise hl]
      cases l with
      | nil => rfl
      | cons b l => rw [insert, if_pos (ha b (.head _))]

/-- Rows of the same items have the same row in order, where no two different items may each stand before
the other. -/
theorem sort_eq_of_perm (ht : ∀ a b c, le a b = true → le b c = true → le a c = true)
    (htotal : ∀ a b, le a b = true ∨ le b a = true) {l l' : List α}
    (hanti : ∀ a ∈ l, ∀ b ∈ l, le a b = true → le b a = true → a = b) (h : l.Perm l') :
    sort le l = sort le l' := by
  refine List.Perm.eq_of_pairwise (fun a b ha hb => ?_) (pairwise_sort ht htotal l)
    (pairwise_sort ht htotal l') (((sort_perm l).trans h).trans (sort_perm l').symm)
  exact hanti a (mem_sort.mp ha) b (h.mem_iff.mpr (mem_sort.mp hb))

end IntentBuild.Sorting
