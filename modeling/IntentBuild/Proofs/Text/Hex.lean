import Mathlib.Algebra.Group.Nat.Defs
import IntentBuild.Text.Hex

/-!
# Hexadecimal digits are read back

A row of digits that is long enough spells its number (`hexNumber_hexDigits`), and four digits
spell a number below `16 ^ 4` (`hexQuad?_hexDigits`).
-/

namespace IntentBuild.Text

/-- The number that a row of hexadecimal digits spells. -/
def hexNumber (cs : List Char) : Nat := cs.foldl (fun n c => 16 * n + (hexValue? c).getD 0) 0

theorem hexValue?_hexDigit : ∀ n, n < 16 → hexValue? (hexDigit n) = some n := by decide

theorem hexNumber_append_singleton (cs : List Char) (c : Char) :
    hexNumber (cs ++ [c]) = 16 * hexNumber cs + (hexValue? c).getD 0 := by
  simp [hexNumber]

/-- A row of digits that is long enough spells its number. -/
theorem hexNumber_hexDigits : ∀ (width n : Nat), n < 16 ^ width →
    hexNumber (hexDigits width n) = n
  | 0, n, h => by
      have h0 : n = 0 := by simpa using h
      rw [h0]; rfl
  | width + 1, n, h => by
      have hd : n / 16 < 16 ^ width :=
        Nat.div_lt_of_lt_mul (by rw [Nat.pow_succ, Nat.mul_comm] at h; exact h)
      rw [hexDigits, hexNumber_append_singleton, hexNumber_hexDigits width _ hd,
        hexValue?_hexDigit _ (Nat.mod_lt _ (by decide)), Option.getD_some]
      omega

/-- Four digits are read back as their number. -/
theorem hexQuad?_hexDigits {n : Nat} (h : n < 0x10000) :
    ∃ a b c d, hexDigits 4 n = [a, b, c, d] ∧ hexQuad? a b c d = some n := by
  refine ⟨_, _, _, _, rfl, ?_⟩
  have digit (m : Nat) : hexValue? (hexDigit (m % 16)) = some (m % 16) :=
    hexValue?_hexDigit _ (Nat.mod_lt _ (by decide))
  simp only [hexQuad?, digit, Option.bind_eq_bind, Option.bind_some, Option.pure_def,
    Option.some.injEq]
  omega

end IntentBuild.Text
