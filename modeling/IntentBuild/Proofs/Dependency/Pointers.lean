import IntentBuild.Proofs.Dependency.Union
import IntentBuild.Proofs.Schema.Reading

/-!
# Pointers of files

A file points at the names that it declares.  `point` is what a delta does to a list of pointers,
as `applyDelta` is what it does to the map of the file, and the two stay in step
(`mem_foldl_point`).

The union of what the files declare is a function of the pointers and of the versions that stand
behind them.  Refreshing only the names of the deltas gives the union anew
(`sortByKey_refreshed`).
-/

namespace IntentBuild

/-- The rules of a delta as a whole hold. -/
structure DependencyDelta.Valid (d : DependencyDelta) : Prop where
  /-- An added name has a version. -/
  hasVersion : d.hasVersion = true
  /-- A version that is given is readable. -/
  readable : d.readable = true

namespace DependencyDelta

instance (d : DependencyDelta) : Decidable d.Valid :=
  decidable_of_iff (d.hasVersion = true ∧ d.readable = true)
    ⟨fun ⟨hv, hr⟩ => ⟨hv, hr⟩, fun ⟨hv, hr⟩ => ⟨hv, hr⟩⟩

theorem valid_of_check {d d' : DependencyDelta} (h : d.check = .ok d') : d'.Valid := by
  obtain ⟨d₁, h₁, h₂⟩ := Reading.andThen_eq_ok.mp h
  obtain ⟨hv, rfl⟩ := Reading.rule_eq_ok.mp h₁
  obtain ⟨hr, rfl⟩ := Reading.rule_eq_ok.mp h₂
  exact ⟨hv, hr⟩

/-- A delta that is made keeps the rules. -/
theorem valid_of_make {o : DeltaOperation} {name : String} {v : Option String}
    {d : DependencyDelta} (h : make o name v = .ok d) : d.Valid := by
  unfold make Reading.validated at h
  split at h
  · rename_i d' hd
    cases h
    obtain ⟨_, -, hc⟩ := Reading.andThen_eq_ok.mp hd
    exact valid_of_check hc
  · cases h

/-- The version of a valid addition is readable. -/
theorem Valid.readable_of_add {d : DependencyDelta} (h : d.Valid) (ha : d.operation = .add) :
    Version.isReadable (d.minVersion.getD "") = true := by
  obtain ⟨hv, hr⟩ := h
  unfold DependencyDelta.hasVersion at hv
  unfold DependencyDelta.readable at hr
  cases hm : d.minVersion with
  | none =>
      rw [ha, hm] at hv
      exact absurd hv (by decide)
  | some v =>
      rw [hm] at hr
      exact hr

end DependencyDelta

namespace Manifest

open Assoc (keys Proper)

/-! ## Maps of files -/

/-- The names do not repeat, and all versions are readable. -/
structure Orderly (m : Dependencies) : Prop where
  /-- The names do not repeat. -/
  proper : Proper m
  /-- The versions are readable. -/
  readable : ∀ {k v}, Assoc.get? k m = some v → Version.isReadable v = true

theorem Orderly.applyDelta {m : Dependencies} (h : Orderly m) {d : DependencyDelta}
    (hd : d.Valid) : Orderly (applyDelta m d) := by
  unfold Manifest.applyDelta
  cases ho : d.operation with
  | add =>
      refine ⟨Assoc.proper_set h.proper _ _, fun {k v} hk => ?_⟩
      rw [Assoc.get?_set] at hk
      split at hk
      · cases hk
        exact hd.readable_of_add ho
      · exact h.readable hk
  | remove =>
      refine ⟨Assoc.proper_erase h.proper _, fun {k v} hk => ?_⟩
      rw [Assoc.get?_erase] at hk
      split at hk
      · cases hk
      · exact h.readable hk

theorem Orderly.foldl_applyDelta {m : Dependencies} (h : Orderly m) {ds : List DependencyDelta}
    (hds : ∀ d ∈ ds, d.Valid) : Orderly (ds.foldl Manifest.applyDelta m) := by
  induction ds generalizing m with
  | nil => exact h
  | cons d ds ih =>
      exact ih (h.applyDelta (hds d (.head _))) fun d' hd' => hds d' (.tail _ hd')

theorem Orderly.sortByKey {m : Dependencies} (h : Orderly m) : Orderly (Text.sortByKey m) :=
  ⟨Text.proper_sortByKey h.proper, fun hk => h.readable (Text.get?_sortByKey h.proper _ ▸ hk)⟩

/-- What a delta makes of its name. -/
def outcome (d : DependencyDelta) : Option String :=
  match d.operation with
  | .add => some (d.minVersion.getD "")
  | .remove => none

theorem get?_applyDelta (m : Dependencies) (d : DependencyDelta) (k : String) :
    Assoc.get? k (applyDelta m d) = if d.name = k then outcome d else Assoc.get? k m := by
  unfold applyDelta outcome
  by_cases hk : d.name = k
  · subst hk
    rw [if_pos rfl]
    cases d.operation with
    | add => exact Assoc.get?_set_same ..
    | remove => exact Assoc.get?_erase_same ..
  · rw [if_neg hk]
    cases d.operation with
    | add => exact Assoc.get?_set_other (Ne.symm hk) ..
    | remove => exact Assoc.get?_erase_other (Ne.symm hk) ..

/-- Deltas change nothing about other names. -/
theorem get?_foldl_applyDelta {ds : List DependencyDelta} {k : String}
    (hk : ∀ d ∈ ds, d.name ≠ k) (m : Dependencies) :
    Assoc.get? k (ds.foldl applyDelta m) = Assoc.get? k m := by
  induction ds generalizing m with
  | nil => rfl
  | cons d ds ih =>
      rw [List.foldl_cons, ih fun d' hd' => hk d' (.tail _ hd'), get?_applyDelta,
        if_neg (hk d (.head _))]

/-! ## Pointers -/

/-- The identifier of a file with a name that it declares. -/
abbrev Pointer := String × String

/-- The pointers after a delta of a file.  A new one goes to the end. -/
def point (file : String) (ps : List Pointer) (d : DependencyDelta) : List Pointer :=
  match d.operation with
  | .add => if (file, d.name) ∈ ps then ps else ps ++ [(file, d.name)]
  | .remove => ps.filter (· ≠ (file, d.name))

variable {file : String} {ps : List Pointer}

theorem mem_point {d : DependencyDelta} {q : Pointer} :
    q ∈ point file ps d ↔
      match d.operation with
      | .add => q = (file, d.name) ∨ q ∈ ps
      | .remove => q ∈ ps ∧ q ≠ (file, d.name) := by
  unfold point
  cases d.operation with
  | add =>
      by_cases h : (file, d.name) ∈ ps
      · simp only [if_pos h]
        exact ⟨.inr, fun hq => hq.elim (fun he => he ▸ h) id⟩
      · simp [if_neg h, or_comm]
  | remove => simp

/-- A delta of a file leaves the pointers of other files alone. -/
theorem mem_foldl_point_other {s : String} (hs : s ≠ file) (ds : List DependencyDelta) (k : String) :
    (s, k) ∈ ds.foldl (point file) ps ↔ (s, k) ∈ ps := by
  induction ds generalizing ps with
  | nil => exact Iff.rfl
  | cons d ds ih =>
      rw [List.foldl_cons, ih, mem_point]
      cases d.operation <;> simp [hs]

/-- What a file points at and what it declares stay in step. -/
theorem mem_foldl_point {m : Dependencies} (h : ∀ k, (file, k) ∈ ps ↔ k ∈ keys m)
    (ds : List DependencyDelta) (k : String) :
    (file, k) ∈ ds.foldl (point file) ps ↔ k ∈ keys (ds.foldl applyDelta m) := by
  induction ds generalizing ps m with
  | nil => exact h k
  | cons d ds ih =>
      refine ih fun k => ?_
      rw [mem_point, applyDelta]
      cases d.operation with
      | add => simp [Assoc.mem_keys_set, h]
      | remove => simp [Assoc.mem_keys_erase, h]

/-- Deltas change nothing about the pointers at other names, not even their order. -/
theorem filter_foldl_point {ds : List DependencyDelta} {k : String} (hk : ∀ d ∈ ds, d.name ≠ k) :
    ((ds.foldl (point file) ps).filter fun q => q.2 == k) = ps.filter fun q => q.2 == k := by
  induction ds generalizing ps with
  | nil => rfl
  | cons d ds ih =>
      rw [List.foldl_cons, ih fun d' hd' => hk d' (.tail _ hd')]
      have hne := hk d (.head _)
      unfold point
      cases d.operation with
      | add =>
          dsimp only
          split
          · rfl
          · simp [List.filter_append, hne]
      | remove =>
          rw [List.filter_filter]
          refine List.filter_congr fun q _ => ?_
          by_cases hq : q.2 = k
          · have : q ≠ (file, d.name) := fun he => hne (by rw [← hq, he])
            simp [hq, this]
          · simp [hq]

/-! ## The union -/

/-- What stands behind pointers, where a function gives the version of a file for a name. -/
def said (version : String → String → Option String) (ps : List Pointer) :
    List (String × Option String) :=
  ps.map fun q => (q.2, version q.1 q.2)

/-- The union of what stands behind pointers, in order. -/
def union (version : String → String → Option String) (ps : List Pointer) : Dependencies :=
  Text.sortByKey (raiseAll [] (said version ps))

variable {version version' : String → String → Option String}

theorem union_nil : union version [] = [] := by simp [union, said, raiseAll, Text.sortByKey]

theorem saidOf_said (ps : List Pointer) (k : String) :
    saidOf (said version ps) k = (ps.filter fun q => q.2 == k).map fun q => version q.1 k := by
  rw [saidOf, said, List.filter_map, List.map_map]
  refine List.map_congr_left fun q hq => ?_
  have hk : q.2 = k := by simpa using (List.mem_filter.mp hq).2
  rw [Function.comp_apply, hk]

theorem mem_saidOf_said {k : String} {v : Option String} :
    v ∈ saidOf (said version ps) k ↔ ∃ s, (s, k) ∈ ps ∧ version s k = v := by
  rw [saidOf_said, List.mem_map]
  constructor
  · rintro ⟨⟨s, k'⟩, hq, rfl⟩
    obtain ⟨hq, hk⟩ := List.mem_filter.mp hq
    have hk : k' = k := by simpa using hk
    exact ⟨s, hk ▸ hq, rfl⟩
  · rintro ⟨s, hs, rfl⟩
    exact ⟨(s, k), List.mem_filter.mpr ⟨hs, by simp⟩, rfl⟩

theorem said_congr (h : ∀ q ∈ ps, version q.1 q.2 = version' q.1 q.2) :
    said version ps = said version' ps :=
  List.map_congr_left fun q hq => by rw [h q hq]

theorem proper_union : Proper (union version ps) :=
  Text.proper_sortByKey (proper_raiseAll Assoc.proper_nil _)

/-- The version of a name is the best one that stands behind a pointer at it. -/
theorem get?_union_said (k : String) :
    Assoc.get? k (union version ps) = best (saidOf (said version ps) k) := by
  rw [union, Text.get?_sortByKey (proper_raiseAll Assoc.proper_nil _), get?_union]

/-- Where a pointer may also give the version of the union, the union is the same. -/
theorem union_settle (h : ∀ q ∈ ps, version' q.1 q.2 = version q.1 q.2 ∨
    version' q.1 q.2 = Assoc.get? q.2 (union version ps)) :
    union version' ps = union version ps := by
  refine Text.sortByKey_eq (proper_raiseAll Assoc.proper_nil _)
    (proper_raiseAll Assoc.proper_nil _) fun k => ?_
  rw [get?_union, get?_union, saidOf_said, saidOf_said]
  refine best_map_eq fun q hq => ?_
  obtain ⟨hq, hk⟩ := List.mem_filter.mp hq
  have hk : q.2 = k := by simpa using hk
  have hq := h q hq
  rwa [get?_union_said, hk, saidOf_said] at hq

/-! ## Refreshing -/

/-- A map with the best version for a name, or without the name. -/
def refreshed (version : String → String → Option String) (ps : List Pointer) (m : Dependencies)
    (name : String) : Dependencies :=
  match best (saidOf (said version ps) name) with
  | some v => Assoc.set name v m
  | none => Assoc.erase name m

theorem proper_foldl_refreshed {m : Dependencies} (hm : Proper m) (names : List String) :
    Proper (names.foldl (refreshed version ps) m) := by
  induction names generalizing m with
  | nil => exact hm
  | cons n names ih =>
      refine ih ?_
      unfold refreshed
      split
      · exact Assoc.proper_set hm _ _
      · exact Assoc.proper_erase hm _

theorem get?_foldl_refreshed (names : List String) (m : Dependencies) (k : String) :
    Assoc.get? k (names.foldl (refreshed version ps) m) =
      if k ∈ names then best (saidOf (said version ps) k) else Assoc.get? k m := by
  have one (n : String) (m : Dependencies) : Assoc.get? k (refreshed version ps m n) =
      if k = n then best (saidOf (said version ps) k) else Assoc.get? k m := by
    unfold refreshed
    by_cases hk : k = n
    · subst hk
      rw [if_pos rfl]
      split
      · rename_i h; rw [Assoc.get?_set_same, h]
      · rename_i h; rw [Assoc.get?_erase_same, h]
    · rw [if_neg hk]
      split
      · exact Assoc.get?_set_other hk ..
      · exact Assoc.get?_erase_other hk ..
  induction names generalizing m with
  | nil => simp
  | cons n names ih =>
      rw [List.foldl_cons, ih, one]
      by_cases hk : k ∈ names
      · simp [hk]
      · by_cases hkn : k = n <;> simp [hk, hkn]

/-- Where nothing is said anew about other names, refreshing some names gives the union anew. -/
theorem sortByKey_refreshed {ps' : List Pointer} {names : List String}
    (h : ∀ k, k ∉ names → saidOf (said version' ps') k = saidOf (said version ps) k) :
    Text.sortByKey (names.foldl (refreshed version' ps') (union version ps)) =
      union version' ps' := by
  refine Text.sortByKey_eq (proper_foldl_refreshed proper_union _)
    (proper_raiseAll Assoc.proper_nil _) fun k => ?_
  rw [get?_foldl_refreshed, get?_union]
  by_cases hk : k ∈ names
  · rw [if_pos hk]
  · rw [if_neg hk, get?_union_said, h k hk]

end Manifest

end IntentBuild
