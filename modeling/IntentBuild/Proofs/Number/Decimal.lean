import IntentBuild.Proofs.Number.Rounding

/-!
# The shortest decimal is rounded to its number

The decimal that a number is written with lies in the interval of the number (`inInterval_shortest`), so
it is rounded to this number, however its digits and its exponent are shifted (`ofDecimal_shortest`).
That there is such a decimal is a matter of width: with seventeen digits, the neighbours of the number on
the grid are closer to each other than the ends of the interval.
-/

namespace IntentBuild.Binary64

/-! ## Powers of ten -/

/-- A positive number lies between the powers of ten that the count of its digits names. -/
theorem length_toDigits {n : Nat} (hn : 0 < n) : ∃ k, (Nat.toDigits 10 n).length = k + 1 ∧
    10 ^ k ≤ n ∧ n < 10 ^ (k + 1) := by
  induction n using Nat.strongRecOn with
  | ind n ih =>
      by_cases hlt : n < 10
      · exact ⟨0, by rw [Nat.toDigits_of_lt_base hlt]; rfl, by omega, by omega⟩
      · obtain ⟨k, hlen, hlow, hhigh⟩ := ih (n / 10) (by omega) (by omega)
        refine ⟨k + 1, ?_, ?_, ?_⟩
        · rw [Nat.toDigits_of_base_le (by decide) (by omega), List.length_append, hlen]
          rfl
        · rw [pow_succ]
          omega
        · rw [pow_succ]
          omega

theorem scaleTen_pos (n : Nat) {d : Nat} (hd : 0 < d) (k : Int) : 0 < (scaleTen n d k).2 := by
  unfold scaleTen
  split
  · exact hd
  · exact Nat.mul_pos hd (Nat.pow_pos (by decide))

theorem quotient_scaleTen (n d : Nat) (k : Int) :
    quotient (scaleTen n d k) = n / d * 10 ^ k := by
  unfold scaleTen quotient
  split
  · rename_i hk
    obtain ⟨j, rfl⟩ := Int.eq_ofNat_of_zero_le hk
    rw [Int.toNat_natCast, zpow_natCast, Nat.cast_mul, mul_div_right_comm]
    simp
  · rename_i hk
    obtain ⟨j, hj⟩ := Int.eq_ofNat_of_zero_le (show 0 ≤ -k by omega)
    obtain rfl : k = -(j : Int) := by omega
    rw [neg_neg, Int.toNat_natCast, zpow_neg, zpow_natCast, Nat.cast_mul, ← div_eq_mul_inv, div_div]
    simp

theorem two_pow_lt_ten_pow {a b : Nat} (h : Nat.pow 2 a < Nat.pow 10 b) :
    (2 ^ a : ℚ) < 10 ^ (b : Int) := by
  rw [zpow_natCast]
  exact_mod_cast h

/-! ## Rounding decimals -/

/-- The numbers that are rounded are neither too large nor too small for their length. -/
theorem size_of_inInterval {m c : Nat} {e k : Int} (hm : Regular m e) (hc : 0 < c)
    (h : InInterval m e (c * 10 ^ k)) :
    ((Nat.toDigits 10 c).length + k : Int) ≤ 310 ∧ -330 ≤ ((Nat.toDigits 10 c).length + k : Int) := by
  obtain ⟨l, hlen, hlow, hhigh⟩ := length_toDigits hc
  have hlow : (10 ^ l : ℚ) ≤ c := by exact_mod_cast hlow
  have hhigh : (c : ℚ) < 10 ^ (l + 1) := by exact_mod_cast hhigh
  have hpow : (0 : ℚ) < 10 ^ k := by positivity
  rw [hlen]
  constructor
  · have hlarge : (10 : ℚ) ^ ((l : Int) + k) < 10 ^ (309 : Int) := calc
      (10 : ℚ) ^ ((l : Int) + k) = 10 ^ l * 10 ^ k := by rw [zpow_add₀ (by norm_num), zpow_natCast]
      _ ≤ c * 10 ^ k := by gcongr
      _ ≤ (4 * m + 2) * 2 ^ (e - 2) := high_intervalOf m e ▸ h.high
      _ ≤ 2 ^ (55 : Int) * 2 ^ (969 : Int) := by
          have hm' : (m : ℚ) + 1 ≤ 2 * leastNormal := by exact_mod_cast hm.below
          have he : (2 : ℚ) ^ (e - 2) ≤ 2 ^ (969 : Int) := by
            have := hm.greatest
            rw [maxExponent] at this
            exact zpow_le_zpow_right₀ (by norm_num) (by omega)
          have hleast : (4 * m + 2 : ℚ) ≤ 2 ^ (55 : Int) := by
            norm_num [leastNormal] at hm' ⊢
            linarith
          exact mul_le_mul hleast he (by positivity) (by positivity)
      _ = 2 ^ 1024 := by
          rw [← zpow_add₀ (by norm_num)]
          exact zpow_natCast 2 1024
      _ < 10 ^ (309 : Int) := two_pow_lt_ten_pow (a := 1024) (b := 309) (by decide +kernel)
    have := (zpow_lt_zpow_iff_right₀ (by norm_num)).mp hlarge
    push_cast
    omega
  · have hsmall : (10 : ℚ) ^ (-330 : Int) < 10 ^ ((l : Int) + 1 + k) := calc
      (10 : ℚ) ^ (-330 : Int) = (10 ^ (330 : Int))⁻¹ := zpow_neg 10 330
      _ ≤ (2 ^ 1076)⁻¹ := inv_anti₀ (by positivity)
          (two_pow_lt_ten_pow (a := 1076) (b := 330) (by decide +kernel)).le
      _ = 1 * 2 ^ (-1076 : Int) := by rw [one_mul, zpow_neg, ← zpow_natCast]; rfl
      _ ≤ (4 * m - 2) * 2 ^ (e - 2) := by
          have hm' : (1 : ℚ) ≤ m := by exact_mod_cast hm.pos
          have he : (2 : ℚ) ^ (-1076 : Int) ≤ 2 ^ (e - 2) := by
            have := hm.least
            rw [minExponent] at this
            exact zpow_le_zpow_right₀ (by norm_num) (by omega)
          exact mul_le_mul (by linarith) he (by positivity) (by linarith)
      _ ≤ c * 10 ^ k := le_trans (by gcongr; exact low_intervalOf hm.pos e) h.low
      _ < 10 ^ (l + 1) * 10 ^ k := by gcongr
      _ = 10 ^ ((l : Int) + 1 + k) := by
          rw [zpow_add₀ (by norm_num), ← zpow_natCast]
          push_cast
          rfl
    have := (zpow_lt_zpow_iff_right₀ (by norm_num)).mp hsmall
    push_cast
    omega

/-- A decimal in the interval of a number is rounded to it. -/
theorem ofDecimal_eq {m c : Nat} {e k : Int} (hm : Regular m e) (hc : 0 < c)
    (h : InInterval m e (c * 10 ^ k)) (negative : Bool) :
    ofDecimal negative c k = .finite negative m e := by
  have hten (j : Nat) : 0 < Nat.pow 10 j := Nat.pow_pos (by decide)
  obtain ⟨hlarge, hsmall⟩ := size_of_inInterval hm hc h
  rw [ofDecimal, if_neg (by simpa using hc.ne')]
  dsimp only
  rw [if_neg (Int.not_lt.mpr hlarge), if_neg (Int.not_lt.mpr hsmall)]
  split
  · rename_i hk
    refine ofRatio_eq (Nat.mul_pos hc (hten _)) Nat.one_pos hm ?_ negative
    have hq := quotient_scaleTen c 1 k
    rw [scaleTen, if_pos hk, quotient] at hq
    rw [hq, Nat.cast_one, div_one]
    exact h
  · rename_i hk
    refine ofRatio_eq hc (hten _) hm ?_ negative
    have hq := quotient_scaleTen c 1 k
    rw [scaleTen, if_neg hk, quotient, Nat.one_mul] at hq
    rw [hq, Nat.cast_one, div_one]
    exact h

/-! ## The grid -/

/-- The numerator of a quarter of `2^e`. -/
def unit (e : Int) : Nat := if 0 ≤ e - 2 then Nat.pow 2 (e - 2).toNat else 1

/-- The denominator of a quarter of `2^e`. -/
def share (e : Int) : Nat := if 0 ≤ e - 2 then 1 else Nat.pow 2 (2 - e).toNat

theorem unit_pos (e : Int) : 0 < unit e := by
  unfold unit
  split
  · exact Nat.pow_pos (by decide)
  · exact Nat.one_pos

theorem share_pos (e : Int) : 0 < share e := by
  unfold share
  split
  · exact Nat.one_pos
  · exact Nat.pow_pos (by decide)

theorem unit_div_share (e : Int) : (unit e / share e : ℚ) = 2 ^ (e - 2) := by
  unfold unit share
  split
  · rename_i he
    obtain ⟨k, hk⟩ := Int.eq_ofNat_of_zero_le he
    rw [hk, Int.toNat_natCast, zpow_natCast]
    simp
  · rename_i he
    obtain ⟨k, hk⟩ := Int.eq_ofNat_of_zero_le (show 0 ≤ 2 - e by omega)
    obtain rfl : e = 2 - (k : Int) := by omega
    rw [show (2 : Int) - (2 - k) = k by ring, show (2 : Int) - k - 2 = -k by ring, Int.toNat_natCast,
      zpow_neg, zpow_natCast]
    simp

/-- A point of the grid lies in the interval. -/
theorem holds_eq_true {m c : Nat} {e k : Int} :
    (intervalOf m e).holds (unit e) (share e) c k = true ↔ InInterval m e (c * 10 ^ k) := by
  have hd := scaleTen_pos c Nat.one_pos k
  have hq : quotient (scaleTen c 1 k) = c * 10 ^ k := by
    rw [quotient_scaleTen, Nat.cast_one, div_one]
  unfold Interval.holds
  generalize scaleTen c 1 k = r at hd hq ⊢
  obtain ⟨n, d⟩ := r
  have hdpos : (0 : ℚ) < d := Nat.cast_pos.mpr hd
  have hspos : (0 : ℚ) < share e := Nat.cast_pos.mpr (share_pos e)
  -- Both sides are brought to the same denominator.
  have hle (l : Nat) : (l * 2 ^ (e - 2) : ℚ) ≤ c * 10 ^ k ↔ l * unit e * d ≤ n * share e := by
    rw [← hq, ← unit_div_share, quotient, ← mul_div_assoc, div_le_div_iff₀ hspos hdpos]
    exact_mod_cast Iff.rfl
  have hge (l : Nat) : (c * 10 ^ k : ℚ) ≤ l * 2 ^ (e - 2) ↔ n * share e ≤ l * unit e * d := by
    rw [← hq, ← unit_div_share, quotient, ← mul_div_assoc, div_le_div_iff₀ hdpos hspos]
    exact_mod_cast Iff.rfl
  have hlt (l : Nat) : (l * 2 ^ (e - 2) : ℚ) < c * 10 ^ k ↔ l * unit e * d < n * share e := by
    rw [← not_le, hge, not_le]
  have hgt (l : Nat) : (c * 10 ^ k : ℚ) < l * 2 ^ (e - 2) ↔ n * share e < l * unit e * d := by
    rw [← not_le, hle, not_le]
  dsimp only
  split
  · rename_i hclosed
    rw [Bool.and_eq_true, decide_eq_true_eq, decide_eq_true_eq, ← hle, ← hge]
    exact ⟨fun h => ⟨h.1, h.2, .inl hclosed⟩, fun h => ⟨h.low, h.high⟩⟩
  · rename_i hclosed
    rw [Bool.and_eq_true, decide_eq_true_eq, decide_eq_true_eq, ← hlt, ← hgt]
    exact ⟨fun h => ⟨h.1.le, h.2.le, .inr h⟩, fun h => h.inside.resolve_left hclosed⟩

/-- The power of ten below a quotient. -/
theorem decimalExponent_le {num den : Nat} (hn : 0 < num) (hd : 0 < den) :
    (10 : ℚ) ^ decimalExponent num den ≤ num / den := by
  obtain ⟨j, hj, hnum, -⟩ := length_toDigits hn
  obtain ⟨l, hl, -, hden⟩ := length_toDigits hd
  have hnum : (10 ^ j : ℚ) ≤ num := by exact_mod_cast hnum
  have hden : (den : ℚ) < 10 ^ (l + 1) := by exact_mod_cast hden
  have hdpos : (0 : ℚ) < den := Nat.cast_pos.mpr hd
  unfold decimalExponent
  rw [hj, hl]
  obtain ⟨g, hg⟩ : ∃ g : Int, g = ((j + 1 : Nat) : Int) - (l + 1 : Nat) := ⟨_, rfl⟩
  rw [← hg]
  have hpos := scaleTen_pos 1 Nat.one_pos g
  have hq := quotient_scaleTen 1 1 g
  dsimp only
  generalize scaleTen 1 1 g = r at hpos hq ⊢
  obtain ⟨n, d⟩ := r
  rw [Nat.cast_one, div_one, one_mul, quotient] at hq
  split
  · calc (10 : ℚ) ^ (g - 1) = 10 ^ j / 10 ^ (l + 1) := by
          rw [← zpow_natCast, ← zpow_natCast, ← zpow_sub₀ (by norm_num), hg]
          congr 1
          push_cast
          ring
      _ ≤ num / den := by gcongr
  · rename_i h
    rw [← hq, div_le_div_iff₀ (Nat.cast_pos.mpr hpos) hdpos]
    exact_mod_cast not_lt.mp h

/-- The power of ten between two neighbours on the grid. -/
def gridExponent (m : Nat) (e : Int) (n : Nat) : Int :=
  decimalExponent (4 * m * unit e) (share e) - n + 1

/-- The neighbour of the number below it on the grid. -/
def gridFloor (m : Nat) (e : Int) (n : Nat) : Nat :=
  let r := scaleTen 1 1 (gridExponent m e n)
  4 * m * unit e * r.2 / (share e * r.1)

/-- One of the two neighbours is found, or neither lies in the interval. -/
theorem nearestOnGrid?_cases (m : Nat) (e : Int) (n : Nat) :
    (∃ c : Nat, nearestOnGrid? m e n = some ⟨c, gridExponent m e n⟩ ∧
      InInterval m e (c * 10 ^ gridExponent m e n)) ∨
    nearestOnGrid? m e n = none ∧ ¬ InInterval m e (gridFloor m e n * 10 ^ gridExponent m e n) ∧
      ¬ InInterval m e ((gridFloor m e n + 1 : Nat) * 10 ^ gridExponent m e n) := by
  obtain ⟨nearer, tie, heq⟩ : ∃ nearer tie : Bool, nearestOnGrid? m e n =
      let below := (intervalOf m e).holds (unit e) (share e) (gridFloor m e n) (gridExponent m e n)
      let above :=
        (intervalOf m e).holds (unit e) (share e) (gridFloor m e n + 1) (gridExponent m e n)
      if below && (!above || nearer || tie) then some ⟨gridFloor m e n, gridExponent m e n⟩
      else if above then some ⟨gridFloor m e n + 1, gridExponent m e n⟩
      else none := ⟨_, _, rfl⟩
  rw [heq, ← holds_eq_true, ← holds_eq_true]
  dsimp only
  split
  · rename_i hb
    exact .inl ⟨_, rfl, holds_eq_true.mp (Bool.and_eq_true _ _ ▸ hb).1⟩
  · rename_i hb
    split
    · rename_i ha
      exact .inl ⟨_, rfl, holds_eq_true.mp ha⟩
    · rename_i ha
      refine .inr ⟨rfl, fun h => hb ?_, ha⟩
      rw [h, Bool.eq_false_of_not_eq_true ha]
      rfl

/-- What is found on the grid lies in the interval. -/
theorem inInterval_nearestOnGrid? {m n : Nat} {e : Int} {d : Decimal}
    (h : nearestOnGrid? m e n = some d) : InInterval m e (d.digits * 10 ^ d.exponent) := by
  rcases nearestOnGrid?_cases m e n with ⟨c, hc, hinside⟩ | ⟨hnone, -, -⟩
  · rw [h] at hc
    cases hc
    exact hinside
  · rw [h] at hnone
    cases hnone

/-- The number lies between its neighbours on the grid. -/
theorem gridFloor_le (m : Nat) (e : Int) (n : Nat) :
    (gridFloor m e n * 10 ^ gridExponent m e n : ℚ) ≤ 4 * m * 2 ^ (e - 2) ∧
      (4 * m * 2 ^ (e - 2) : ℚ) < (gridFloor m e n + 1 : Nat) * 10 ^ gridExponent m e n := by
  have hgd := scaleTen_pos 1 Nat.one_pos (gridExponent m e n)
  have hq := quotient_scaleTen 1 1 (gridExponent m e n)
  unfold gridFloor
  generalize scaleTen 1 1 (gridExponent m e n) = r at hgd hq ⊢
  obtain ⟨gn, gd⟩ := r
  generalize gridExponent m e n = k at hq ⊢
  have hgdpos : (0 : ℚ) < gd := Nat.cast_pos.mpr hgd
  have hspos : (0 : ℚ) < share e := Nat.cast_pos.mpr (share_pos e)
  have hgn : (gn : ℚ) = 10 ^ k * gd := by
    rw [Nat.cast_one, div_one, one_mul, quotient] at hq
    exact (div_eq_iff hgdpos.ne').mp hq
  have hunit : (unit e : ℚ) = 2 ^ (e - 2) * share e := (div_eq_iff hspos.ne').mp (unit_div_share e)
  have hgnpos : 0 < gn := by
    have : (0 : ℚ) < gn := by rw [hgn]; positivity
    exact_mod_cast this
  have hden : 0 < share e * gn := Nat.mul_pos (share_pos e) hgnpos
  have hfactor : (0 : ℚ) < share e * gd := by positivity
  dsimp only
  constructor
  · have h : ((4 * m * unit e * gd / (share e * gn) * (share e * gn) : Nat) : ℚ) ≤
        (4 * m * unit e * gd : Nat) := Nat.cast_le.mpr (Nat.div_mul_le_self ..)
    generalize 4 * m * unit e * gd / (share e * gn) = c at h ⊢
    push_cast at h
    rw [hgn, hunit] at h
    refine le_of_mul_le_mul_right ?_ hfactor
    linarith
  · have h : ((4 * m * unit e * gd : Nat) : ℚ) <
        ((4 * m * unit e * gd / (share e * gn) + 1) * (share e * gn) : Nat) :=
      Nat.cast_lt.mpr ((Nat.div_lt_iff_lt_mul hden).mp (Nat.lt_succ_self _))
    generalize 4 * m * unit e * gd / (share e * gn) = c at h ⊢
    push_cast at h ⊢
    rw [hgn, hunit] at h
    refine lt_of_mul_lt_mul_right ?_ hfactor.le
    linarith

/-- The ends of the interval are farther from each other than neighbours on the grid of seventeen
digits. -/
theorem width_intervalOf {m : Nat} {e : Int} (hm : Regular m e) :
    (4 * m : ℚ) < 10 ^ 16 * ((intervalOf m e).high - (intervalOf m e).low) := by
  have hm' : (m : ℚ) + 1 ≤ 2 * leastNormal := by exact_mod_cast hm.below
  have hpos := hm.pos
  rw [high_intervalOf, intervalOf]
  dsimp only
  split
  · rename_i h
    rw [Bool.and_eq_true, beq_iff_eq] at h
    rw [h.1, Nat.cast_sub (by decide)]
    norm_num [leastNormal]
  · rw [Nat.cast_sub (by omega)]
    norm_num [leastNormal] at hm' ⊢
    linarith

/-- With seventeen digits a decimal is found. -/
theorem isSome_nearestOnGrid? {m : Nat} {e : Int} (hm : Regular m e) :
    (nearestOnGrid? m e 17).isSome = true := by
  rcases nearestOnGrid?_cases m e 17 with ⟨c, hc, -⟩ | ⟨-, hbelow, habove⟩
  · rw [hc]
    rfl
  · exfalso
    obtain ⟨hfloor, hceil⟩ := gridFloor_le m e 17
    have hunit : (0 : ℚ) < 2 ^ (e - 2) := by positivity
    have hlow := low_intervalOf_lt hm.pos e
    have hhigh := high_intervalOf m e
    have hwidth := width_intervalOf hm
    -- Neither neighbour lies in the interval, so the interval lies between them.
    have hbelow : (gridFloor m e 17 * 10 ^ gridExponent m e 17 : ℚ) ≤
        (intervalOf m e).low * 2 ^ (e - 2) := by
      by_contra h
      have h := not_le.mp h
      have hlt : (gridFloor m e 17 * 10 ^ gridExponent m e 17 : ℚ) <
          (intervalOf m e).high * 2 ^ (e - 2) := by
        rw [hhigh]
        nlinarith
      exact hbelow ⟨h.le, hlt.le, .inr ⟨h, hlt⟩⟩
    have habove : ((intervalOf m e).high * 2 ^ (e - 2) : ℚ) ≤
        (gridFloor m e 17 + 1 : Nat) * 10 ^ gridExponent m e 17 := by
      by_contra h
      have h := not_le.mp h
      have hlt : ((intervalOf m e).low * 2 ^ (e - 2) : ℚ) <
          (gridFloor m e 17 + 1 : Nat) * 10 ^ gridExponent m e 17 := by nlinarith
      exact habove ⟨hlt.le, h.le, .inr ⟨hlt, h⟩⟩
    have hstep : (10 : ℚ) ^ gridExponent m e 17 * 10 ^ 16 ≤ 4 * m * 2 ^ (e - 2) := calc
      (10 : ℚ) ^ gridExponent m e 17 * 10 ^ 16
      _ = 10 ^ decimalExponent (4 * m * unit e) (share e) := by
          rw [gridExponent, ← zpow_natCast, ← zpow_add₀ (by norm_num)]
          congr 1
          push_cast
          ring
      _ ≤ (4 * m * unit e : Nat) / share e := decimalExponent_le
          (Nat.mul_pos (Nat.mul_pos (by decide) hm.pos) (unit_pos e)) (share_pos e)
      _ = 4 * m * 2 ^ (e - 2) := by
          rw [← unit_div_share]
          push_cast
          ring
    push_cast at habove
    nlinarith

/-- Moving zeros into the exponent keeps the value. -/
theorem value_dropZeros (fuel : Nat) (d : Decimal) :
    ((d.dropZeros fuel).digits * 10 ^ (d.dropZeros fuel).exponent : ℚ) =
      d.digits * 10 ^ d.exponent := by
  induction fuel generalizing d with
  | zero => rfl
  | succ fuel ih =>
      rw [Decimal.dropZeros]
      split
      · rename_i h
        simp only [Bool.and_eq_true, beq_iff_eq] at h
        obtain ⟨c, hc⟩ := Nat.dvd_of_mod_eq_zero h.2
        rw [ih]
        dsimp only
        rw [hc, Nat.mul_div_cancel_left _ (by decide), zpow_add_one₀ (by norm_num)]
        push_cast
        ring
      · rfl

/-- The shortest decimal lies in the interval of its number. -/
theorem inInterval_shortest {m : Nat} {e : Int} (hm : Regular m e) :
    InInterval m e ((shortest m e).digits * 10 ^ (shortest m e).exponent) := by
  rw [shortest, value_dropZeros]
  cases h : ((List.range 17).map (· + 1)).findSome? (nearestOnGrid? m e) with
  | none =>
      have hnone := List.findSome?_eq_none_iff.mp h 17 (by decide)
      have hsome := isSome_nearestOnGrid? hm
      rw [hnone] at hsome
      cases hsome
  | some d =>
      obtain ⟨n, -, hn⟩ := List.exists_of_findSome?_eq_some h
      exact inInterval_nearestOnGrid? hn

/-- A decimal in the interval of a number has a digit other than zero. -/
theorem InInterval.pos {m c : Nat} {e k : Int} (hm : Regular m e)
    (h : InInterval m e (c * 10 ^ k)) : 0 < c := by
  refine Nat.pos_of_ne_zero fun hc => ?_
  have hlow := low_intervalOf hm.pos e
  have hone : (1 : ℚ) ≤ m := by exact_mod_cast hm.pos
  have hunit : (0 : ℚ) < 2 ^ (e - 2) := by positivity
  have := h.low
  rw [hc, Nat.cast_zero, zero_mul] at this
  nlinarith

/-- The shortest decimal is rounded to its number, also with more zeros at its end. -/
theorem ofDecimal_shortest {m c : Nat} {e k : Int} (hm : Regular m e)
    (h : (c * 10 ^ k : ℚ) = (shortest m e).digits * 10 ^ (shortest m e).exponent)
    (negative : Bool) : ofDecimal negative c k = .finite negative m e :=
  have hinside : InInterval m e (c * 10 ^ k) := h ▸ inInterval_shortest hm
  ofDecimal_eq hm (hinside.pos hm) hinside negative

end IntentBuild.Binary64
