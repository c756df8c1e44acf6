import IntentBuild.Json.Parser
import IntentBuild.Proofs.Assoc
import IntentBuild.Proofs.Number.Rounding

/-!
# What is read has every key once

A text may spell an object with a key twice, but the value that is read keeps the last entry of a
key only, at every depth (`tidy_parse?`).  So two objects that were read are equal maps just when
they give the same value for every key.  A finite number that is read is in its normal form, and one that
is not finite is replaced where the value is written (`finite_finite`).
-/

namespace IntentBuild.Json

open Assoc (Proper)

mutual

/-- Every object in the value has each key once, and every finite number is in its normal form. -/
def Tidy : Json → Prop
  | .float x => x.Tidy
  | .arr vs => TidyItems vs
  | .obj ms => Proper ms ∧ TidyMembers ms
  | _ => True

/-- All items are tidy. -/
def TidyItems : List Json → Prop
  | [] => True
  | v :: vs => Tidy v ∧ TidyItems vs

/-- All members are tidy. -/
def TidyMembers : Members → Prop
  | [] => True
  | (_, v) :: ms => Tidy v ∧ TidyMembers ms

end

theorem tidyMembers_iff {ms : Members} : TidyMembers ms ↔ ∀ e ∈ ms, Tidy e.2 := by
  induction ms with
  | nil => simp [TidyMembers]
  | cons e ms ih => rw [TidyMembers, ih, List.forall_mem_cons]

/-- The map of some entries has every key once. -/
theorem tidy_ofEntries {es : Members} (h : TidyMembers es) : (Json.obj (Assoc.ofEntries es)).Tidy := by
  have fold {acc : Members} (hacc : Proper acc) (hms : TidyMembers acc) :
      (Json.obj (es.foldl (fun m e => Assoc.set e.1 e.2 m) acc)).Tidy := by
    induction es generalizing acc with
    | nil => exact ⟨hacc, hms⟩
    | cons e es ih =>
        rw [TidyMembers] at h
        refine ih h.2 (Assoc.proper_set hacc _ _) (tidyMembers_iff.mpr fun d hd => ?_)
        rcases (Assoc.mem_set hacc).mp hd with rfl | ⟨hd, -⟩
        · exact h.1
        · exact tidyMembers_iff.mp hms d hd
  exact fold Assoc.proper_nil trivial

theorem tidy_readNumber? {negative : Bool} {cs rest : List Char} {v : Json}
    (h : readNumber? negative cs = some (v, rest)) : v.Tidy := by
  unfold readNumber? at h
  split at h
  · cases h
  · dsimp only at h
    split at h
    · cases h
      trivial
    · cases h
      exact Binary64.tidy_ofDecimal ..

theorem tidy_readWord? {cs rest : List Char} {v : Json} (h : readWord? cs = some (v, rest)) :
    v.Tidy := by
  unfold readWord? at h
  split at h
  case h_7 => exact tidy_readNumber? h
  case h_8 => exact tidy_readNumber? h
  all_goals
    cases h
    trivial

mutual

theorem tidy_readValue? : ∀ (fuel : Nat) {cs rest : List Char} {v : Json},
    readValue? fuel cs = some (v, rest) → v.Tidy
  | fuel + 1, cs, rest, v, h => by
      rw [readValue?] at h
      split at h
      · split at h
        · cases h
          exact ⟨Assoc.proper_nil, trivial⟩
        · obtain ⟨r, hr, he⟩ := Option.map_eq_some_iff.mp h
          cases he
          exact tidy_ofEntries (tidy_readMembers? fuel hr)
      · split at h
        · cases h
          trivial
        · obtain ⟨r, hr, he⟩ := Option.map_eq_some_iff.mp h
          cases he
          exact tidy_readItems? fuel hr
      · obtain ⟨r, -, he⟩ := Option.map_eq_some_iff.mp h
        cases he
        trivial
      · exact tidy_readWord? h

theorem tidy_readItems? : ∀ (fuel : Nat) {cs rest : List Char} {vs : List Json},
    readItems? fuel cs = some (vs, rest) → TidyItems vs
  | fuel + 1, cs, rest, vs, h => by
      rw [readItems?] at h
      split at h
      · cases h
      · rename_i v after hv
        have hv := tidy_readValue? fuel hv
        split at h
        · cases h
          exact ⟨hv, trivial⟩
        · obtain ⟨r, hr, he⟩ := Option.map_eq_some_iff.mp h
          cases he
          exact ⟨hv, tidy_readItems? fuel hr⟩
        · cases h

theorem tidy_readMembers? : ∀ (fuel : Nat) {cs rest : List Char} {ms : Members},
    readMembers? fuel cs = some (ms, rest) → TidyMembers ms
  | fuel + 1, cs, rest, ms, h => by
      unfold readMembers? at h
      split at h
      · split at h
        · cases h
        · split at h
          · split at h
            · cases h
            · rename_i v after hv
              have hv := tidy_readValue? fuel hv
              dsimp only at h
              split at h
              · cases h
                exact ⟨hv, trivial⟩
              · obtain ⟨r, hr, he⟩ := Option.map_eq_some_iff.mp h
                cases he
                exact ⟨hv, tidy_readMembers? fuel hr⟩
              · cases h
          · cases h
      · cases h

end

/-- What a text spells has every key once. -/
theorem tidy_parse? {s : String} {v : Json} (h : parse? s = some v) : v.Tidy := by
  unfold parse? parseChars? at h
  split at h
  · rename_i v' rest hv
    split at h
    · cases h
      exact tidy_readValue? _ hv
    · cases h
  · cases h

/-! ## Numbers that are not finite -/

mutual

/-- Numbers that stand for themselves are replaced once. -/
theorem mapFloats_mapFloats {f : Binary64 → Json} (hf : ∀ x, mapFloats f (f x) = f x) :
    ∀ v : Json, mapFloats f (mapFloats f v) = mapFloats f v
  | .null | .bool _ | .int _ | .str _ => rfl
  | .float x => hf x
  | .arr vs => congrArg Json.arr (mapFloatsItems_mapFloatsItems hf vs)
  | .obj ms => congrArg Json.obj (mapFloatsMembers_mapFloatsMembers hf ms)

theorem mapFloatsItems_mapFloatsItems {f : Binary64 → Json} (hf : ∀ x, mapFloats f (f x) = f x) :
    ∀ vs : List Json, mapFloatsItems f (mapFloatsItems f vs) = mapFloatsItems f vs
  | [] => rfl
  | v :: vs =>
      congrArg₂ List.cons (mapFloats_mapFloats hf v) (mapFloatsItems_mapFloatsItems hf vs)

theorem mapFloatsMembers_mapFloatsMembers {f : Binary64 → Json}
    (hf : ∀ x, mapFloats f (f x) = f x) :
    ∀ ms : Members, mapFloatsMembers f (mapFloatsMembers f ms) = mapFloatsMembers f ms
  | [] => rfl
  | (_, v) :: ms => congrArg₂ List.cons (congrArg _ (mapFloats_mapFloats hf v))
      (mapFloatsMembers_mapFloatsMembers hf ms)

end

theorem mapFloats_ofFinite (x : Binary64) : mapFloats ofFinite (ofFinite x) = ofFinite x := by
  cases x <;> rfl

/-- Numbers that are not finite are replaced once. -/
theorem finite_finite (v : Json) : v.finite.finite = v.finite := mapFloats_mapFloats mapFloats_ofFinite v

end IntentBuild.Json
