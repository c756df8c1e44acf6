import IntentBuild.Proofs.Json.Tidy
import IntentBuild.Proofs.Text.Order

/-!
# Values up to the order of members

Two values are *alike* when they are equal up to the order in which their objects have their members, at
every depth.  Sorting the members by any total order of keys tells just the values apart that are not
alike (`sortKeys_eq_iff`), so a text that is written with sorted members depends on no order.
-/

namespace IntentBuild.Json

open Assoc (keys Proper)

mutual

/-- The values are equal up to the order of the members of their objects, at every depth. -/
def Alike : Json → Json → Prop
  | .arr vs, .arr ws => AlikeItems vs ws
  | .obj ms, .obj ns => ms.length = ns.length ∧ AlikeMembers ms ns
  | v, w => v = w

/-- The items are alike, one by one. -/
def AlikeItems : List Json → List Json → Prop
  | [], [] => True
  | v :: vs, w :: ws => Alike v w ∧ AlikeItems vs ws
  | _, _ => False

/-- Every member has a member with its key and a value that is alike among the others. -/
def AlikeMembers : Members → Members → Prop
  | [], _ => True
  | (k, v) :: ms, ns => (∃ w, Assoc.get? k ns = some w ∧ Alike v w) ∧ AlikeMembers ms ns

end

variable {le : String → String → Bool}

theorem sortKeysMembers_eq (le : String → String → Bool) (ms : Members) :
    sortKeysMembers le ms = ms.map fun e => (e.1, e.2.sortKeys le) := by
  induction ms with
  | nil => rfl
  | cons e ms ih => rw [sortKeysMembers, ih, List.map_cons]

theorem proper_sortKeysMembers {ms : Members} (h : Proper ms) : Proper (sortKeysMembers le ms) := by
  rw [Proper, sortKeysMembers_eq, Assoc.keys_mapValues]
  exact h

/-- Proper objects have the same sorted members just when these are the same in any order. -/
theorem sortKeys_obj_eq_iff (hle : Text.IsOrder le) {ms ns : Members} (hms : Proper ms) :
    (Json.obj ms).sortKeys le = (Json.obj ns).sortKeys le ↔
      (sortKeysMembers le ms).Perm (sortKeysMembers le ns) := by
  rw [sortKeys, sortKeys, Json.obj.injEq]
  refine ⟨fun h => ?_, hle.sortMembers_eq (proper_sortKeysMembers hms)⟩
  have hsorted (ls : Members) : (Sorting.sort (fun a b => le a.1 b.1) ls).Perm ls := Sorting.sort_perm ls
  exact (hsorted _).symm.trans (h ▸ hsorted _)

mutual

/-- Values are alike just when they have the same form with sorted members. -/
theorem sortKeys_eq_iff (hle : Text.IsOrder le) : ∀ {v w : Json}, v.Tidy → w.Tidy →
    (v.sortKeys le = w.sortKeys le ↔ v.Alike w)
  | .null, w, _, _ | .bool _, w, _, _ | .int _, w, _, _ | .float _, w, _, _ | .str _, w, _, _ => by
      cases w <;> simp [sortKeys, Alike]
  | .arr vs, w, hv, hw => by
      cases w with
      | arr ws => simp only [sortKeys, Alike, Json.arr.injEq, sortKeysItems_eq_iff hle hv hw]
      | _ => simp [sortKeys, Alike]
  | .obj ms, w, hv, hw => by
      cases w with
      | obj ns =>
          have hlength : (sortKeysMembers le ms).length = (sortKeysMembers le ns).length ↔
              ms.length = ns.length := by
            rw [sortKeysMembers_eq, sortKeysMembers_eq, List.length_map, List.length_map]
          have hnodup : (sortKeysMembers le ms).Nodup := Assoc.nodup_of_proper (proper_sortKeysMembers hv.1)
          rw [sortKeys_obj_eq_iff hle hv.1, Alike, ← alikeMembers_iff hle hv.2 hw, ← hlength]
          refine ⟨fun h => ⟨h.length_eq, h.subset⟩, fun h => ?_⟩
          exact (hnodup.subperm h.2).perm_of_length_le h.1.ge
      | _ => simp [sortKeys, Alike]

theorem sortKeysItems_eq_iff (hle : Text.IsOrder le) : ∀ {vs ws : List Json}, TidyItems vs →
    TidyItems ws → (sortKeysItems le vs = sortKeysItems le ws ↔ AlikeItems vs ws)
  | [], ws, _, _ => by cases ws <;> simp [sortKeysItems, AlikeItems]
  | v :: vs, [], _, _ => by simp [sortKeysItems, AlikeItems]
  | v :: vs, w :: ws, hv, hw => by
      rw [sortKeysItems, sortKeysItems, List.cons.injEq, sortKeys_eq_iff hle hv.1 hw.1,
        sortKeysItems_eq_iff hle hv.2 hw.2, AlikeItems]

/-- Members have like members among others just when their sorted forms are among those of the others. -/
theorem alikeMembers_iff (hle : Text.IsOrder le) : ∀ {ms ns : Members}, TidyMembers ms →
    (Json.obj ns).Tidy → (sortKeysMembers le ms ⊆ sortKeysMembers le ns ↔ AlikeMembers ms ns)
  | [], ns, _, _ => by simp [sortKeysMembers, AlikeMembers]
  | (k, v) :: ms, ns, hv, hn => by
      have hmember : (k, v.sortKeys le) ∈ sortKeysMembers le ns ↔
          ∃ w, Assoc.get? k ns = some w ∧ Alike v w := by
        rw [sortKeysMembers_eq, List.mem_map]
        constructor
        · rintro ⟨⟨k', w⟩, hmem, he⟩
          obtain ⟨rfl, hsorted⟩ := Prod.mk.inj he
          have hw := tidyMembers_iff.mp hn.2 _ hmem
          exact ⟨w, Assoc.get?_of_mem hn.1 hmem, (sortKeys_eq_iff hle hv.1 hw).mp hsorted.symm⟩
        · rintro ⟨w, hget, halike⟩
          have hmem := Assoc.mem_of_get? hget
          have hw := tidyMembers_iff.mp hn.2 _ hmem
          exact ⟨(k, w), hmem, by rw [(sortKeys_eq_iff hle hv.1 hw).mpr halike]⟩
      rw [sortKeysMembers, List.cons_subset, hmember, alikeMembers_iff hle hv.2 hn, AlikeMembers]

end

/-! ## Sorting twice -/

mutual

/-- Values whose members are in order stay as they are. -/
theorem sortKeys_sortKeys (hle : Text.IsOrder le) : ∀ v : Json, (v.sortKeys le).sortKeys le = v.sortKeys le
  | .null | .bool _ | .int _ | .float _ | .str _ => rfl
  | .arr vs => congrArg Json.arr (sortKeysItems_sortKeysItems hle vs)
  | .obj ms => by
      have hperm : (Sorting.sort (fun a b => le a.1 b.1) (sortKeysMembers le ms)).Perm
          (sortKeysMembers le ms) := Sorting.sort_perm _
      have hmembers : sortKeysMembers le (Sorting.sort (fun a b => le a.1 b.1) (sortKeysMembers le ms)) =
          Sorting.sort (fun a b => le a.1 b.1) (sortKeysMembers le ms) := by
        rw [sortKeysMembers_eq]
        refine (List.map_congr_left fun e he => ?_).trans (List.map_id _)
        exact congrArg (e.1, ·) (sortKeys_of_mem_sortKeysMembers hle ms e (hperm.mem_iff.mp he))
      have hsorted : (Sorting.sort (fun a b => le a.1 b.1) (sortKeysMembers le ms)).Pairwise
          fun a b => le a.1 b.1 = true :=
        Sorting.pairwise_sort (fun a b c => @Text.IsOrder.trans le hle a.1 b.1 c.1)
          (fun a b => hle.total a.1 b.1) (sortKeysMembers le ms)
      rw [sortKeys, sortKeys, hmembers, Sorting.sort_of_pairwise hsorted]

theorem sortKeysItems_sortKeysItems (hle : Text.IsOrder le) :
    ∀ vs : List Json, sortKeysItems le (sortKeysItems le vs) = sortKeysItems le vs
  | [] => rfl
  | v :: vs => congrArg₂ List.cons (sortKeys_sortKeys hle v) (sortKeysItems_sortKeysItems hle vs)

theorem sortKeys_of_mem_sortKeysMembers (hle : Text.IsOrder le) :
    ∀ ms : Members, ∀ e ∈ sortKeysMembers le ms, e.2.sortKeys le = e.2
  | [], e, he => absurd he List.not_mem_nil
  | (_, v) :: ms, e, he => by
      rcases List.mem_cons.mp he with rfl | he
      · exact sortKeys_sortKeys hle v
      · exact sortKeys_of_mem_sortKeysMembers hle ms e he

end

end IntentBuild.Json
