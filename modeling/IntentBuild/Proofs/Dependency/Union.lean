import IntentBuild.Dependency.Manifest
import IntentBuild.Proofs.Json.Canonical
import IntentBuild.Proofs.Version.Order

/-!
# The union of declarations

The version that the union of some declarations has for a name depends only on the declarations
of that name (`get?_raiseAll`).  It is one of the declared versions, and no declared version is
higher (`best_eq_some`).

The maps that nodes keep are read back as they were written (`textsAt_of_set`).
-/

namespace IntentBuild.Manifest

open Assoc (keys Proper)
open Version (isHigher)

/-! ## The best version -/

/-- The better of a version so far and another one, where the former wins a tie. -/
def better (current : Option String) : Option String → Option String
  | some v => if isHigher v current then some v else current
  | none => current

/-- The best of some versions, the first one among equals. -/
def best (vs : List (Option String)) : Option String := vs.foldl better none

/-- A fold keeps a version that is declared or was there, and that none of the others exceeds. -/
theorem foldl_better (vs : List (Option String)) (c : Option String) :
    (vs.foldl better c = none ↔ c = none ∧ ∀ v ∈ vs, v = none) ∧
      ∀ m, vs.foldl better c = some m →
        (c = some m ∨ some m ∈ vs) ∧ (∀ u, some u ∈ vs → isHigher u (some m) = false) ∧
          ∀ u, isHigher u c = false → isHigher u (some m) = false := by
  induction vs generalizing c with
  | nil =>
      refine ⟨by simp, fun m hm => ⟨.inl hm, by simp, fun u hu => ?_⟩⟩
      rw [List.foldl_nil] at hm
      rw [← hm]
      exact hu
  | cons v vs ih =>
      obtain ⟨hnone, hsome⟩ := ih (better c v)
      rw [List.foldl_cons]
      cases v with
      | none =>
          rw [better] at *
          refine ⟨by simpa using hnone, fun m hm => ?_⟩
          obtain ⟨hin, hall, hc⟩ := hsome m hm
          refine ⟨hin.imp_right (.tail _), fun u hu => ?_, hc⟩
          rcases List.mem_cons.mp hu with h | h
          · cases h
          · exact hall u h
      | some v =>
          by_cases hv : isHigher v c = true
          · rw [better, if_pos hv] at *
            refine ⟨by simp [hnone], fun m hm => ?_⟩
            obtain ⟨hin, hall, hc⟩ := hsome m hm
            refine ⟨.inr (List.mem_cons.mpr (hin.imp_left fun h => h.symm)), fun u hu => ?_,
              fun u hu => ?_⟩
            · rcases List.mem_cons.mp hu with h | h
              · cases h
                exact hc v (Version.isHigher_irrefl v)
              · exact hall u h
            · cases c with
              | none => cases hu
              | some c => exact hc u (Version.isHigher_of_not hu hv)
          · rw [better, if_neg hv] at *
            have hcn : c ≠ none := fun h => hv (h ▸ rfl)
            refine ⟨by simp [hnone, hcn], fun m hm => ?_⟩
            obtain ⟨hin, hall, hc⟩ := hsome m hm
            refine ⟨hin.imp_right (.tail _), fun u hu => ?_, hc⟩
            rcases List.mem_cons.mp hu with h | h
            · cases h
              exact hc v (Bool.eq_false_iff.mpr hv)
            · exact hall u h

/-- There is no best version just when there is none. -/
theorem best_eq_none {vs : List (Option String)} : best vs = none ↔ ∀ v ∈ vs, v = none := by
  simpa [best] using (foldl_better vs none).1

/-- The best version is one of them, and none is higher. -/
theorem best_eq_some {vs : List (Option String)} {m : String} (h : best vs = some m) :
    some m ∈ vs ∧ ∀ u, some u ∈ vs → isHigher u (some m) = false := by
  obtain ⟨hin, hall, -⟩ := (foldl_better vs none).2 m h
  exact ⟨hin.resolve_left nofun, hall⟩

/-- A fold ends where it began, or higher. -/
theorem foldl_better_rises {vs : List (Option String)} {c : Option String} {m : String}
    (h : vs.foldl better c = some m) : c = some m ∨ isHigher m c = true := by
  induction vs generalizing c with
  | nil => exact .inl h
  | cons v vs ih =>
      have ih := ih h
      cases v with
      | none => exact ih
      | some v =>
          by_cases hv : isHigher v c = true
          · rw [better, if_pos hv, Option.some.injEq] at ih
            refine .inr (ih.elim (fun hm => hm ▸ hv) fun hm => ?_)
            cases c with
            | none => rfl
            | some c =>
                exact Version.isHigher_trans hm hv
          · rwa [better, if_neg hv] at ih

/-- One more version, or the one that a fold ends with, leaves the fold on its way. -/
theorem better_or_eq {vs : List (Option String)} {c c' v v' m : Option String}
    (hm : (v :: vs).foldl better c = m) (hc : c' = c ∨ c' = m) (hv : v' = v ∨ v' = m) :
    better c' v' = better c v ∨ better c' v' = m := by
  obtain ⟨hnone, hsome⟩ := foldl_better (v :: vs) c
  cases m with
  | none =>
      obtain ⟨rfl, hall⟩ := hnone.mp hm
      obtain rfl := hall v (.head _)
      rcases hc with rfl | rfl <;> rcases hv with rfl | rfl <;> exact .inl rfl
  | some b =>
      obtain ⟨-, hall, -⟩ := hsome b hm
      have top {u : Option String} (hu : ∀ x, u = some x → isHigher x (some b) = false) :
          better (some b) u = some b := by
        cases u with
        | none => rfl
        | some u => rw [better, if_neg (Bool.eq_false_iff.mp (hu u rfl))]
      rcases hc with rfl | rfl
      · rcases hv with rfl | rfl
        · exact .inl rfl
        · refine .inr ?_
          rcases foldl_better_rises hm with rfl | hb
          · exact top fun x hx => by cases hx; exact Version.isHigher_irrefl b
          · rw [better, if_pos hb]
      · refine .inr (top fun x hx => ?_)
        rcases hv with rfl | rfl
        · exact hall x (by rw [hx]; exact .head _)
        · cases hx
          exact Version.isHigher_irrefl b

/-- Saying the best version in place of another one leaves it the best. -/
theorem best_map_eq {α : Type} {l : List α} {v v' : α → Option String}
    (h : ∀ a ∈ l, v' a = v a ∨ v' a = best (l.map v)) : best (l.map v') = best (l.map v) := by
  have fold (m : Option String) (l : List α) (c c' : Option String)
      (hm : (l.map v).foldl better c = m) (hc : c' = c ∨ c' = m)
      (hl : ∀ a ∈ l, v' a = v a ∨ v' a = m) : (l.map v').foldl better c' = m := by
    induction l generalizing c c' with
    | nil =>
        rcases hc with rfl | rfl
        · exact hm
        · rfl
    | cons a l ih =>
        exact ih _ _ hm (better_or_eq hm hc (hl a (.head _))) fun x hx => hl x (.tail _ hx)
  exact fold _ l none none rfl (.inl rfl) h

/-! ## The union -/

/-- The union so far with the declarations of a list. -/
def raiseAll (u : Dependencies) (ds : List (String × Option String)) : Dependencies :=
  ds.foldl (fun u d => raise u d.1 d.2) u

theorem get?_raise (u : Dependencies) (name : String) (v : Option String) (k : String) :
    Assoc.get? k (raise u name v) =
      if k = name then better (Assoc.get? name u) v else Assoc.get? k u := by
  cases v with
  | none => simp only [raise, better]; split <;> simp_all
  | some v =>
      simp only [raise, better]
      by_cases hv : isHigher v (Assoc.get? name u) = true
      · rw [if_pos hv, if_pos hv, Assoc.get?_set]
      · rw [if_neg hv, if_neg hv]
        split <;> simp_all

theorem proper_raise {u : Dependencies} (hu : Proper u) (name : String) (v : Option String) :
    Proper (raise u name v) := by
  cases v with
  | none => exact hu
  | some v =>
      simp only [raise]
      split
      · exact Assoc.proper_set hu _ _
      · exact hu

theorem proper_raiseAll {u : Dependencies} (hu : Proper u) (ds : List (String × Option String)) :
    Proper (raiseAll u ds) := by
  induction ds generalizing u with
  | nil => exact hu
  | cons d ds ih => exact ih (proper_raise hu _ _)

/-- What a list of declarations says about a name. -/
def saidOf (ds : List (String × Option String)) (k : String) : List (Option String) :=
  (ds.filter fun d => d.1 == k).map Prod.snd

/-- Only the declarations of a name count for its version. -/
theorem get?_raiseAll (u : Dependencies) (ds : List (String × Option String)) (k : String) :
    Assoc.get? k (raiseAll u ds) = (saidOf ds k).foldl better (Assoc.get? k u) := by
  induction ds generalizing u with
  | nil => rfl
  | cons d ds ih =>
      rw [raiseAll, List.foldl_cons]
      refine (ih (raise u d.1 d.2)).trans ?_
      rw [get?_raise]
      by_cases hk : d.1 = k
      · subst hk
        rw [if_pos rfl, saidOf, saidOf, List.filter_cons_of_pos (by simp), List.map_cons,
          List.foldl_cons]
      · rw [if_neg (Ne.symm hk), saidOf, saidOf, List.filter_cons_of_neg (by simpa using hk)]

/-- The version of a name in the union is the best one that is said about it. -/
theorem get?_union (ds : List (String × Option String)) (k : String) :
    Assoc.get? k (raiseAll [] ds) = best (saidOf ds k) := get?_raiseAll [] ds k

/-! ## Maps of texts in nodes -/

theorem texts?_ofTexts (m : Dependencies) :
    Json.texts? (m.map fun e => (e.1, Json.str e.2)) = some m := by
  induction m with
  | nil => rfl
  | cons e m ih => rw [List.map_cons, Json.texts?, ih]; rfl

theorem get?_of_texts? {ms : Members} {m : Dependencies} (h : Json.texts? ms = some m)
    (k : String) : Assoc.get? k ms = (Assoc.get? k m).map Json.str := by
  induction ms generalizing m with
  | nil => cases h; rfl
  | cons e ms ih =>
      obtain ⟨k', v⟩ := e
      cases v with
      | str s =>
          rw [Json.texts?, Option.map_eq_some_iff] at h
          obtain ⟨m', hm', rfl⟩ := h
          simp only [Assoc.get?]
          split
          · rfl
          · exact ih hm'
      | _ => cases h

variable {n : Node} {key : String} {m : Dependencies}

/-- A map is read back as it was set. -/
theorem textsAt_of_set (h : n.members = Assoc.set key (.ofTexts m) ms) : textsAt key n = .ok m := by
  rw [textsAt, h, Assoc.get?_set_same]
  simp only [Json.ofTexts, texts?_ofTexts]

theorem texts?_of_set (h : n.members = Assoc.set key (.ofTexts m) ms) : texts? key n = some m := by
  rw [texts?, h, Assoc.get?_set_same]
  simp only [Json.ofTexts, texts?_ofTexts]

theorem textsAt_of_texts? (h : texts? key n = some m) : textsAt key n = .ok m := by
  unfold texts? at h
  unfold textsAt
  split at h
  · rename_i hg
    simp only [hg, h]
  · cases h

/-- A node that holds a map has a map of equal values. -/
theorem textsAt_of_holds (h : holds key n m = true) :
    ∃ m', textsAt key n = .ok m' ∧ Assoc.same m' m = true := by
  unfold holds at h
  split at h
  · exact ⟨_, textsAt_of_texts? ‹_›, h⟩
  · cases h

/-- A node holds the map that it has. -/
theorem holds_of_texts? (h : texts? key n = some m) (hm : Proper m) : holds key n m = true := by
  rw [holds, h]
  exact Assoc.same_self hm

theorem listsNames_of_textsAt (h : textsAt key n = .ok m) : listsNames key n = true := by
  unfold textsAt at h
  unfold listsNames
  split at h
  · rename_i hg; simp only [hg]
  · rename_i hg; simp only [hg]
  · cases h

/-- What is declared for a name is the value of the map at the name. -/
theorem declaredVersion?_eq (h : textsAt "deps" n = .ok m) (name : String) :
    declaredVersion? n name = .ok (Assoc.get? name m) := by
  unfold textsAt at h
  unfold declaredVersion?
  split at h
  · cases h; rfl
  · rename_i ms _
    split at h
    · rename_i ts hts
      cases h
      rw [get?_of_texts? hts]
      cases Assoc.get? name m <;> rfl
    · cases h
  · cases h

end IntentBuild.Manifest
