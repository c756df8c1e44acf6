import IntentBuild.Number.Shortest
import Mathlib.Algebra.Order.Field.Basic
import Mathlib.Algebra.Order.Field.Power
import Mathlib.Data.Rat.Cast.Order
import Mathlib.Tactic.FieldSimp
import Mathlib.Tactic.Linarith
import Mathlib.Tactic.NormNum
import Mathlib.Tactic.Positivity
import Mathlib.Tactic.Ring

/-!
# Rounding to the nearest number

A number is the one nearest to all rationals of an interval around it (`InInterval`).  A quotient is
rounded at the exponent of its normal form, which two inequalities determine (`exponentOf_eq`), so every
quotient in the interval of a number is rounded to this number (`ofRatio_eq`).  The same holds of
decimals (`ofDecimal_eq`), whose length decides beforehand that some are too large or too small.
-/

namespace IntentBuild.Binary64

/-! ## Quotients -/

/-- A quotient of naturals as a rational. -/
def quotient (r : Nat × Nat) : ℚ := r.1 / r.2

theorem scaleDown_pos {num den : Nat} (hn : 0 < num) (hd : 0 < den) (e : Int) :
    0 < (scaleDown num den e).1 ∧ 0 < (scaleDown num den e).2 := by
  unfold scaleDown
  split
  · exact ⟨hn, Nat.mul_pos hd (Nat.pow_pos (by decide))⟩
  · exact ⟨Nat.mul_pos hn (Nat.pow_pos (by decide)), hd⟩

/-- Scaling divides by a power of two. -/
theorem quotient_scaleDown (num den : Nat) (e : Int) :
    quotient (scaleDown num den e) = num / den / 2 ^ e := by
  unfold scaleDown quotient
  split
  · rename_i he
    obtain ⟨k, rfl⟩ := Int.eq_ofNat_of_zero_le he
    rw [Int.toNat_natCast, zpow_natCast, Nat.cast_mul, div_div]
    simp
  · rename_i he
    obtain ⟨k, hk⟩ := Int.eq_ofNat_of_zero_le (show 0 ≤ -e by omega)
    obtain rfl : e = -(k : Int) := by omega
    rw [neg_neg, Int.toNat_natCast, zpow_neg, zpow_natCast, div_inv_eq_mul, Nat.cast_mul,
      mul_div_right_comm]
    simp

/-- A rational within one half of a natural number is rounded to it, where a tie needs an even one. -/
theorem roundQuotient_eq {n d m : Nat} (hd : 0 < d) (hlow : 2 * (m * d) ≤ 2 * n + d)
    (hhigh : 2 * n ≤ 2 * (m * d) + d)
    (htie : 2 * (m * d) = 2 * n + d ∨ 2 * n = 2 * (m * d) + d → m % 2 = 0) :
    roundQuotient n d = m := by
  have hn : d * (n / d) + n % d = n := Nat.div_add_mod n d
  have hr : n % d < d := Nat.mod_lt n hd
  -- The quotient is the number itself or the one below it.
  have hcases : m = n / d ∨ m = n / d + 1 := by
    rcases Nat.lt_trichotomy m (n / d) with h | h | h
    · have : (m + 1) * d ≤ d * (n / d) := by
        rw [Nat.mul_comm d]
        exact Nat.mul_le_mul_right d h
      rw [Nat.add_mul] at this
      omega
    · exact .inl h
    · by_contra hne
      have : (n / d + 2) * d ≤ m * d := Nat.mul_le_mul_right d (by omega)
      rw [Nat.add_mul, Nat.mul_comm (n / d)] at this
      omega
  unfold roundQuotient
  dsimp only
  rcases hcases with rfl | rfl
  · rw [Nat.mul_comm (n / d)] at *
    split
    · rfl
    · have htie := htie (.inr (by omega))
      have : 2 * (n % d) = d := by omega
      simp [this, htie]
  · rw [Nat.add_mul, Nat.mul_comm (n / d), Nat.one_mul] at *
    rw [if_neg (by omega)]
    split
    · rename_i h
      simp only [Bool.and_eq_true, beq_iff_eq] at h
      have htie := htie (.inl (by omega))
      omega
    · rfl

/-! ## The exponent of a quotient -/

/-- The exponent is the one of the normal form of a positive rational. -/
structure NormalAt (x : ℚ) (e : Int) : Prop where
  /-- It is large enough. -/
  least : minExponent ≤ e
  /-- The significand is below the bound. -/
  below : x < 2 * leastNormal * 2 ^ e
  /-- The significand is not too small, but at the least exponent. -/
  normal : e = minExponent ∨ leastNormal * 2 ^ e ≤ x

/-- There is one such exponent. -/
theorem NormalAt.unique {x : ℚ} {e f : Int} (he : NormalAt x e) (hf : NormalAt x f) : e = f := by
  have le {e f : Int} (he : NormalAt x e) (hf : NormalAt x f) : e ≤ f := by
    rcases he.normal with h | h
    · rw [h]
      exact hf.least
    · by_contra hlt
      have hstep : (2 : ℚ) ^ (f + 1) ≤ 2 ^ e := zpow_le_zpow_right₀ (by norm_num) (by omega)
      rw [zpow_add_one₀ (by norm_num)] at hstep
      have hbelow := hf.below
      have hpos : (0 : ℚ) < leastNormal := by norm_num [leastNormal]
      nlinarith
  exact Int.le_antisymm (le he hf) (le hf he)

/-- A quotient lies between the powers of two that its parts have. -/
theorem quotient_log2 {num den : Nat} (hn : 0 < num) (hd : 0 < den) {g : Int}
    (hg : g = (Nat.log2 num : Int) - Nat.log2 den - 52) :
    (num / den : ℚ) < 2 * leastNormal * 2 ^ g ∧ leastNormal * 2 ^ (g - 1) ≤ (num / den : ℚ) := by
  have hnum : ((2 ^ num.log2 : Nat) : ℚ) ≤ num := Nat.cast_le.mpr (Nat.log2_self_le hn.ne')
  have hnum' : (num : ℚ) < (2 ^ (num.log2 + 1) : Nat) := Nat.cast_lt.mpr Nat.lt_log2_self
  have hden : ((2 ^ den.log2 : Nat) : ℚ) ≤ den := Nat.cast_le.mpr (Nat.log2_self_le hd.ne')
  have hden' : (den : ℚ) < (2 ^ (den.log2 + 1) : Nat) := Nat.cast_lt.mpr Nat.lt_log2_self
  have hdpos : (0 : ℚ) < den := Nat.cast_pos.mpr hd
  have hleast : (leastNormal : ℚ) = 2 ^ (52 : Int) := by norm_num [leastNormal]
  push_cast at hnum hnum' hden hden'
  constructor
  · rw [div_lt_iff₀ hdpos]
    calc (num : ℚ) < 2 ^ (num.log2 + 1) := hnum'
      _ = 2 * leastNormal * 2 ^ g * 2 ^ den.log2 := by
          rw [hleast, ← zpow_one_add₀ (by norm_num), ← zpow_add₀ (by norm_num), ← zpow_natCast,
            ← zpow_natCast, ← zpow_add₀ (by norm_num), hg]
          congr 1
          push_cast
          ring
      _ ≤ 2 * leastNormal * 2 ^ g * den := by gcongr
  · rw [le_div_iff₀ hdpos]
    calc leastNormal * 2 ^ (g - 1) * (den : ℚ)
      _ ≤ leastNormal * 2 ^ (g - 1) * 2 ^ (den.log2 + 1) := by gcongr
      _ = 2 ^ num.log2 := by
          rw [hleast, ← zpow_add₀ (by norm_num), ← zpow_natCast, ← zpow_natCast,
            ← zpow_add₀ (by norm_num), hg]
          congr 1
          push_cast
          ring
      _ ≤ num := hnum

theorem normalAt_exponentOf {num den : Nat} (hn : 0 < num) (hd : 0 < den) :
    NormalAt (num / den) (exponentOf num den) := by
  have hdouble (e : Int) : (2 : ℚ) ^ e = 2 * 2 ^ (e - 1) := by
    rw [← zpow_one_add₀ (by norm_num)]
    congr 1
    ring
  have hguess : ∃ e, (num / den : ℚ) < 2 * leastNormal * 2 ^ e ∧
      leastNormal * 2 ^ e ≤ (num / den : ℚ) ∧
        exponentOf num den = if e < minExponent then minExponent else e := by
    unfold exponentOf
    obtain ⟨g, hg⟩ : ∃ g : Int, g = (Nat.log2 num : Int) - Nat.log2 den - 52 := ⟨_, rfl⟩
    obtain ⟨hbelow, habove⟩ := quotient_log2 hn hd hg
    have hpos := (scaleDown_pos hn hd g).2
    have hscale := quotient_scaleDown num den g
    rw [← hg]
    dsimp only
    generalize scaleDown num den g = r at hscale hpos ⊢
    obtain ⟨n, d⟩ := r
    have htest : n < d * leastNormal ↔ (num / den : ℚ) < leastNormal * 2 ^ g := by
      rw [← div_lt_iff₀ (by positivity), ← hscale, quotient,
        div_lt_iff₀ (Nat.cast_pos.mpr hpos), ← Nat.cast_mul, Nat.cast_lt, Nat.mul_comm]
    by_cases h : n < d * leastNormal
    · refine ⟨g - 1, ?_, habove, by rw [if_pos h]⟩
      rw [hdouble g] at htest
      linarith [htest.mp h]
    · refine ⟨g, hbelow, ?_, by rw [if_neg h]⟩
      exact not_lt.mp (mt htest.mpr h)
  obtain ⟨e, hbelow, habove, he⟩ := hguess
  rw [he]
  split
  · rename_i hlt
    refine ⟨le_rfl, hbelow.trans_le ?_, .inl rfl⟩
    have : (2 : ℚ) ^ e ≤ 2 ^ minExponent := zpow_le_zpow_right₀ (by norm_num) hlt.le
    gcongr
  · rename_i hlt
    exact ⟨Int.not_lt.mp hlt, hbelow, .inr habove⟩

theorem exponentOf_eq {num den : Nat} (hn : 0 < num) (hd : 0 < den) {e : Int}
    (h : NormalAt (num / den) e) : exponentOf num den = e :=
  (normalAt_exponentOf hn hd).unique h

/-! ## Rounding in an interval -/

/-- The number `m · 2^e` is positive and in its normal form. -/
structure Regular (m : Nat) (e : Int) : Prop where
  /-- The number is positive. -/
  pos : 0 < m
  /-- The significand is not too large. -/
  below : m < 2 * leastNormal
  /-- The exponent is not too small. -/
  least : minExponent ≤ e
  /-- The exponent is not too large. -/
  greatest : e ≤ maxExponent
  /-- The significand is not too small, but at the least exponent. -/
  normal : e = minExponent ∨ leastNormal ≤ m

/-- A finite number in its normal form. -/
def Normal : Binary64 → Prop
  | .finite _ m e => m = 0 ∧ e = minExponent ∨ Regular m e
  | _ => False

/-- The rational lies in the interval of the number. -/
structure InInterval (m : Nat) (e : Int) (x : ℚ) : Prop where
  /-- It is not below the interval. -/
  low : (intervalOf m e).low * 2 ^ (e - 2) ≤ x
  /-- It is not above the interval. -/
  high : x ≤ (intervalOf m e).high * 2 ^ (e - 2)
  /-- It is an end only where the ends belong to the interval. -/
  inside : (intervalOf m e).closed = true ∨
    (intervalOf m e).low * 2 ^ (e - 2) < x ∧ x < (intervalOf m e).high * 2 ^ (e - 2)

theorem high_intervalOf (m : Nat) (e : Int) : ((intervalOf m e).high : ℚ) = 4 * m + 2 := by
  rw [intervalOf]
  push_cast
  rfl

/-- The lower end is at most one half below the number. -/
theorem low_intervalOf {m : Nat} (hm : 0 < m) (e : Int) :
    (4 * m - 2 : ℚ) ≤ (intervalOf m e).low := by
  rw [intervalOf]
  dsimp only
  split
  · rw [Nat.cast_sub (by omega)]
    push_cast
    linarith
  · rw [Nat.cast_sub (by omega)]
    push_cast
    exact le_rfl

/-- The lower end is below the number. -/
theorem low_intervalOf_lt {m : Nat} (hm : 0 < m) (e : Int) :
    ((intervalOf m e).low : ℚ) < 4 * m := by
  have h : (intervalOf m e).low < 4 * m := by
    rw [intervalOf]
    dsimp only
    split <;> omega
  exact_mod_cast h

/-- Below the least significand the numbers are closer, so there the lower end is one quarter below. -/
theorem low_intervalOf_least {e : Int} (he : minExponent < e) :
    ((intervalOf leastNormal e).low : ℚ) = 4 * leastNormal - 1 := by
  rw [intervalOf]
  dsimp only
  rw [if_pos (by simpa using he), Nat.cast_sub (by decide)]
  push_cast
  rfl

/-- A rational within one half of a natural number at an exponent is rounded to it there. -/
theorem roundQuotient_scaleDown {num den m : Nat} {f : Int} (hn : 0 < num) (hd : 0 < den)
    (hlow : (m : ℚ) - 1 / 2 ≤ num / den / 2 ^ f) (hhigh : (num / den / 2 ^ f : ℚ) ≤ m + 1 / 2)
    (htie : m % 2 = 0 ∨ (m : ℚ) - 1 / 2 < num / den / 2 ^ f ∧ (num / den / 2 ^ f : ℚ) < m + 1 / 2) :
    roundQuotient (scaleDown num den f).1 (scaleDown num den f).2 = m := by
  have hpos := (scaleDown_pos hn hd f).2
  rw [← quotient_scaleDown] at hlow hhigh htie
  generalize scaleDown num den f = r at *
  obtain ⟨n, d⟩ := r
  change roundQuotient n d = m
  have hdpos : (0 : ℚ) < d := Nat.cast_pos.mpr hpos
  have hq : quotient (n, d) * d = n := div_mul_cancel₀ _ hdpos.ne'
  have hlow' : (2 * (m * d) : ℚ) ≤ 2 * n + d := by nlinarith
  have hhigh' : (2 * n : ℚ) ≤ 2 * (m * d) + d := by nlinarith
  refine roundQuotient_eq (d := d) hpos (by exact_mod_cast hlow') (by exact_mod_cast hhigh') fun h => ?_
  rcases htie with htie | ⟨hl, hh⟩
  · exact htie
  · have hl' : (2 * (m * d) : ℚ) < 2 * n + d := by nlinarith
    have hh' : (2 * n : ℚ) < 2 * (m * d) + d := by nlinarith
    have hl' : 2 * (m * d) < 2 * n + d := by exact_mod_cast hl'
    have hh' : 2 * n < 2 * (m * d) + d := by exact_mod_cast hh'
    omega

/-- A quotient whose exponent and rounded significand are known is rounded to them. -/
theorem ofRatio_of_round {num den m : Nat} {e : Int} (hn : 0 < num) (hd : 0 < den)
    (he : exponentOf num den = e)
    (hround : roundQuotient (scaleDown num den e).1 (scaleDown num den e).2 = m)
    (negative : Bool) :
    ofRatio negative num den =
      let r := if m == 2 * leastNormal then (leastNormal, e + 1) else (m, e)
      if maxExponent < r.2 then .infinite negative else .finite negative r.1 r.2 := by
  have hzero : (num == 0 || den == 0) = false := by simp [hn.ne', hd.ne']
  rw [ofRatio, hzero, he]
  dsimp only
  rw [hround]
  rfl

/-- A quotient in the interval of a number is rounded to it. -/
theorem ofRatio_eq {num den m : Nat} {e : Int} (hn : 0 < num) (hd : 0 < den) (hm : Regular m e)
    (h : InInterval m e (num / den)) (negative : Bool) :
    ofRatio negative num den = .finite negative m e := by
  have hunit : (0 : ℚ) < 2 ^ (e - 2) := by positivity
  have hhalf : (2 : ℚ) ^ (e - 1) = 2 * 2 ^ (e - 2) := by
    rw [← zpow_one_add₀ (by norm_num)]
    congr 1
    ring
  have hpow : (2 : ℚ) ^ e = 4 * 2 ^ (e - 2) := by
    rw [show (4 : ℚ) = 2 ^ (2 : Int) by norm_num, ← zpow_add₀ (by norm_num)]
    congr 1
    ring
  have hpos := hm.pos
  have hbelow : (m : ℚ) + 1 ≤ 2 * leastNormal := by exact_mod_cast hm.below
  obtain ⟨hlow, hhigh, hinside⟩ := h
  rw [high_intervalOf] at hhigh hinside
  have hends := low_intervalOf hpos e
  by_cases hcase : e = minExponent ∨ leastNormal * 2 ^ e ≤ (num / den : ℚ)
  · have he : exponentOf num den = e := by
      refine exponentOf_eq hn hd ⟨hm.least, ?_, hcase⟩
      rw [hpow]
      nlinarith
    have hround : roundQuotient (scaleDown num den e).1 (scaleDown num den e).2 = m := by
      refine roundQuotient_scaleDown hn hd ?_ ?_ ?_
      · rw [le_div_iff₀ (by positivity), hpow]
        nlinarith
      · rw [div_le_iff₀ (by positivity), hpow]
        nlinarith
      · refine hinside.imp (fun h => beq_iff_eq.mp h) fun ⟨hl, hh⟩ => ⟨?_, ?_⟩
        · rw [lt_div_iff₀ (by positivity), hpow]
          nlinarith
        · rw [div_lt_iff₀ (by positivity), hpow]
          nlinarith
    have hne : (m == 2 * leastNormal) = false := by simpa using hm.below.ne
    rw [ofRatio_of_round hn hd he hround, hne]
    exact if_neg (Int.not_lt.mpr hm.greatest)
  · obtain ⟨hne, hlt⟩ := not_or.mp hcase
    have hlt := not_le.mp hlt
    have hnormal := hm.normal.resolve_left hne
    have hleast : minExponent < e := lt_of_le_of_ne hm.least (Ne.symm hne)
    rw [hpow] at hlt
    -- Only the least significand has a quotient of a smaller exponent in its interval.
    obtain rfl : m = leastNormal := by
      refine le_antisymm ?_ hnormal
      by_contra hgt
      have hgt : (leastNormal : ℚ) + 1 ≤ m := by exact_mod_cast not_le.mp hgt
      nlinarith
    rw [low_intervalOf_least hleast] at hlow
    have he : exponentOf num den = e - 1 := by
      refine exponentOf_eq hn hd ⟨by omega, ?_, .inr ?_⟩
      · rw [hhalf]
        linarith
      · rw [hhalf]
        norm_num [leastNormal] at hlow ⊢
        linarith
    have hround : roundQuotient (scaleDown num den (e - 1)).1 (scaleDown num den (e - 1)).2 =
        2 * leastNormal := by
      refine roundQuotient_scaleDown hn hd ?_ ?_ (.inl (by decide))
      · rw [le_div_iff₀ (by positivity), hhalf]
        push_cast
        linarith
      · rw [div_le_iff₀ (by positivity), hhalf]
        push_cast
        linarith
    rw [ofRatio_of_round hn hd he hround, beq_self_eq_true]
    simp only [if_true, Int.sub_add_cancel]
    exact if_neg (Int.not_lt.mpr hm.greatest)

/-! ## What rounding gives -/

/-- A finite number is in its normal form. -/
def Tidy : Binary64 → Prop
  | .finite negative m e => Normal (.finite negative m e)
  | _ => True

theorem Normal.tidy {x : Binary64} (h : x.Normal) : x.Tidy := by
  cases x with
  | finite => exact h
  | _ => trivial

theorem tidy_zero (negative : Bool) : (zero negative).Tidy := .inl ⟨rfl, rfl⟩

/-- A quotient is rounded to its floor or to the number above. -/
theorem roundQuotient_mem (n d : Nat) :
    n / d ≤ roundQuotient n d ∧ roundQuotient n d ≤ n / d + 1 := by
  unfold roundQuotient
  dsimp only
  split <;> [skip; split] <;> omega

/-- The significand of a quotient at the exponent of its normal form. -/
theorem roundQuotient_normalAt {num den : Nat} (hn : 0 < num) (hd : 0 < den) {e : Int}
    (he : NormalAt (num / den) e) {m : Nat}
    (hm : roundQuotient (scaleDown num den e).1 (scaleDown num den e).2 = m) :
    m ≤ 2 * leastNormal ∧ (e = minExponent ∨ leastNormal ≤ m) := by
  have hscale := quotient_scaleDown num den e
  have hpos := (scaleDown_pos hn hd e).2
  generalize scaleDown num den e = r at hm hscale hpos
  obtain ⟨n, d⟩ := r
  obtain ⟨hfloor, hceil⟩ := roundQuotient_mem n d
  dsimp only at hm hpos
  rw [hm] at hfloor hceil
  have hunit : (0 : ℚ) < 2 ^ e := by positivity
  have hdpos : (0 : ℚ) < d := Nat.cast_pos.mpr hpos
  rw [quotient] at hscale
  constructor
  · have hlt : ((n : ℚ) / d) < 2 * leastNormal := by
      rw [hscale, div_lt_iff₀ hunit]
      exact he.below
    rw [div_lt_iff₀ hdpos] at hlt
    have hlt : n < 2 * leastNormal * d := by exact_mod_cast hlt
    have := (Nat.div_lt_iff_lt_mul hpos).mpr hlt
    omega
  · refine he.normal.imp_right fun h => ?_
    have hle : (leastNormal : ℚ) ≤ n / d := by
      rw [hscale, le_div_iff₀ hunit]
      exact h
    rw [le_div_iff₀ hdpos] at hle
    have hle : leastNormal * d ≤ n := by exact_mod_cast hle
    exact ((Nat.le_div_iff_mul_le hpos).mpr hle).trans hfloor

/-- A quotient is rounded to a number in its normal form, or beyond all finite numbers. -/
theorem tidy_ofRatio (negative : Bool) (num den : Nat) : (ofRatio negative num den).Tidy := by
  by_cases hzero : num = 0 ∨ den = 0
  · have h : (num == 0 || den == 0) = true := by simpa using hzero
    rw [ofRatio, if_pos h]
    exact tidy_zero negative
  obtain ⟨hn, hd⟩ := not_or.mp hzero
  have hn := Nat.pos_of_ne_zero hn
  have hd := Nat.pos_of_ne_zero hd
  have hnormal := normalAt_exponentOf hn hd
  obtain ⟨m, hm⟩ : ∃ m, roundQuotient (scaleDown num den (exponentOf num den)).1
      (scaleDown num den (exponentOf num den)).2 = m := ⟨_, rfl⟩
  obtain ⟨hle, hleast⟩ := roundQuotient_normalAt hn hd hnormal hm
  rw [ofRatio_of_round hn hd rfl hm]
  have hminimal := hnormal.least
  generalize exponentOf num den = e at hminimal hleast
  dsimp only
  split
  · have hpos : 0 < leastNormal := by decide
    split
    · trivial
    · rename_i hgreatest
      exact .inr ⟨hpos, by omega, by omega, Int.not_lt.mp hgreatest, .inr le_rfl⟩
  · rename_i htop
    have hbelow : m < 2 * leastNormal := lt_of_le_of_ne hle fun h => htop (beq_iff_eq.mpr h)
    split
    · trivial
    · rename_i hgreatest
      rcases Nat.eq_zero_or_pos m with rfl | hpos
      · exact .inl ⟨rfl, hleast.resolve_right (by decide)⟩
      · exact .inr ⟨hpos, hbelow, hminimal, Int.not_lt.mp hgreatest, hleast⟩

theorem tidy_ofDecimal (negative : Bool) (digits : Nat) (exponent : Int) :
    (ofDecimal negative digits exponent).Tidy := by
  unfold ofDecimal
  dsimp only
  split
  · exact tidy_zero negative
  split
  · trivial
  split
  · exact tidy_zero negative
  split <;> exact tidy_ofRatio ..

end IntentBuild.Binary64
