import IntentBuild.Json.Payload

/-!
# Which values have a canonical text

A value is *exact* when its integers stay within `2^53 - 1` on either side of zero and its floating
point numbers are finite.  Exactly these values have a canonical text, and so a digest
(`contentHash_eq_ok`).
-/

namespace IntentBuild.Json

mutual

/-- Every reader takes the numbers of the value for the same numbers. -/
def Exact : Json → Prop
  | .int i => -maxSafe ≤ i ∧ i ≤ maxSafe
  | .float x => x.isFinite = true
  | .arr vs => ExactItems vs
  | .obj ms => ExactMembers ms
  | _ => True

/-- All items are exact. -/
def ExactItems : List Json → Prop
  | [] => True
  | v :: vs => Exact v ∧ ExactItems vs

/-- All members are exact. -/
def ExactMembers : Members → Prop
  | [] => True
  | (_, v) :: ms => Exact v ∧ ExactMembers ms

end

theorem exactMembers_iff {ms : Members} : ExactMembers ms ↔ ∀ e ∈ ms, e.2.Exact := by
  induction ms with
  | nil => simp [ExactMembers]
  | cons e ms ih => simp [ExactMembers, ih]

theorem exactMembers_set {ms : Members} (h : ExactMembers ms) {v : Json} (hv : v.Exact)
    (k : String) : ExactMembers (Assoc.set k v ms) := by
  induction ms with
  | nil => exact ⟨hv, h⟩
  | cons e ms ih =>
      obtain ⟨k', v'⟩ := e
      rw [Assoc.set]
      split
      · exact ⟨hv, h.2⟩
      · exact ⟨h.1, ih h.2⟩

theorem exact_ofTexts (m : List (String × String)) : (ofTexts m).Exact := by
  refine exactMembers_iff.mpr fun e he => ?_
  obtain ⟨_, _, rfl⟩ := List.mem_map.mp he
  trivial

/-! ## Order of members -/

mutual

theorem exact_sortKeys (le : String → String → Bool) : ∀ v : Json, (v.sortKeys le).Exact ↔ v.Exact
  | .null | .bool _ | .int _ | .float _ | .str _ => Iff.rfl
  | .arr vs => exactItems_sortKeys le vs
  | .obj ms => by
      refine Iff.trans ?_ (exactMembers_sortKeys le ms)
      rw [sortKeys, Exact, exactMembers_iff, exactMembers_iff]
      simp only [Sorting.mem_sort]

theorem exactItems_sortKeys (le : String → String → Bool) :
    ∀ vs : List Json, ExactItems (sortKeysItems le vs) ↔ ExactItems vs
  | [] => Iff.rfl
  | v :: vs => and_congr (exact_sortKeys le v) (exactItems_sortKeys le vs)

theorem exactMembers_sortKeys (le : String → String → Bool) :
    ∀ ms : Members, ExactMembers (sortKeysMembers le ms) ↔ ExactMembers ms
  | [] => Iff.rfl
  | (_, v) :: ms => and_congr (exact_sortKeys le v) (exactMembers_sortKeys le ms)

end

/-! ## The canonical text -/

section

variable {ε α β γ : Type}

theorem exists_ite_eq_ok {c : Prop} [Decidable c] {a : α} {e : ε} :
    (∃ b, (if c then .ok a else .error e : Except ε α) = .ok b) ↔ c := by
  by_cases h : c <;> simp [h]

/-- Two steps one after the other give what is made of the results of both. -/
theorem bind_bind_eq_ok {x : Except ε α} {y : Except ε β} {f : α → β → γ} {c : γ} :
    (x >>= fun a => y >>= fun b => pure (f a b)) = .ok c ↔
      ∃ a b, x = .ok a ∧ y = .ok b ∧ f a b = c := by
  cases x with
  | error e => simp [bind, Except.bind]
  | ok a =>
      cases y with
      | error e => simp [bind, Except.bind]
      | ok b => simp [bind, Except.bind, pure, Except.pure]

/-- Two steps one after the other succeed just when both do. -/
theorem exists_bind_eq_ok {x : Except ε α} {y : Except ε β} {f : α → β → γ} :
    (∃ c, (x >>= fun a => y >>= fun b => pure (f a b)) = .ok c) ↔
      (∃ a, x = .ok a) ∧ ∃ b, y = .ok b := by
  constructor
  · rintro ⟨c, h⟩
    obtain ⟨a, b, ha, hb, -⟩ := bind_bind_eq_ok.mp h
    exact ⟨⟨a, ha⟩, b, hb⟩
  · rintro ⟨⟨a, ha⟩, b, hb⟩
    exact ⟨f a b, bind_bind_eq_ok.mpr ⟨a, b, ha, hb, rfl⟩⟩

end

mutual

theorem writeCanonical_eq_ok : ∀ v : Json, (∃ cs, writeCanonical v = .ok cs) ↔ v.Exact
  | .null | .bool _ | .str _ => by simp [writeCanonical, Exact]
  | .int i => by simp only [writeCanonical, exists_ite_eq_ok, Exact, Bool.and_eq_true,
      decide_eq_true_eq]
  | .float x => by simp only [writeCanonical, exists_ite_eq_ok, Exact]
  | .arr [] => by simp [writeCanonical, Exact, ExactItems]
  | .arr (v :: vs) => by
      rw [writeCanonical, exists_bind_eq_ok]
      exact and_congr (writeCanonical_eq_ok v) (writeCanonicalItems_eq_ok vs)
  | .obj [] => by simp [writeCanonical, Exact, ExactMembers]
  | .obj ((_, v) :: ms) => by
      rw [writeCanonical, exists_bind_eq_ok]
      exact and_congr (writeCanonical_eq_ok v) (writeCanonicalMembers_eq_ok ms)

theorem writeCanonicalItems_eq_ok :
    ∀ vs : List Json, (∃ cs, writeCanonicalItems vs = .ok cs) ↔ ExactItems vs
  | [] => by simp [writeCanonicalItems, ExactItems]
  | v :: vs => by
      rw [writeCanonicalItems, exists_bind_eq_ok]
      exact and_congr (writeCanonical_eq_ok v) (writeCanonicalItems_eq_ok vs)

theorem writeCanonicalMembers_eq_ok :
    ∀ ms : Members, (∃ cs, writeCanonicalMembers ms = .ok cs) ↔ ExactMembers ms
  | [] => by simp [writeCanonicalMembers, ExactMembers]
  | (_, v) :: ms => by
      rw [writeCanonicalMembers, exists_bind_eq_ok]
      exact and_congr (writeCanonical_eq_ok v) (writeCanonicalMembers_eq_ok ms)

end

/-- Exactly the exact values have a digest. -/
theorem contentHash_eq_ok (v : Json) : (∃ h, v.contentHash = .ok h) ↔ v.Exact := by
  rw [← exact_sortKeys Text.utf16Le, ← writeCanonical_eq_ok, contentHash, canonical]
  cases writeCanonical (sortKeys Text.utf16Le v) <;> simp [Except.map]

end IntentBuild.Json
