import IntentBuild.Json.Parser
import IntentBuild.Json.Printer
import IntentBuild.Proofs.Number.Decimal

/-!
# Written numbers are read back

An integer is read back from its digits, and a floating point number from its shortest decimal, which may
be written with a point, with zeros that fill up its digits, or with a power of ten
(`readWord?_floatText`).  What follows a number is never taken for a part of it: there stands no digit,
point or exponent (`Ends`).
-/

namespace IntentBuild.Json

/-! ## Digits -/

/-- What follows does not go on with a number. -/
def Ends (cs : List Char) : Prop :=
  ∀ c ∈ cs.head?, Text.isAsciiDigit c = false ∧ c ≠ '.' ∧ c ≠ 'e' ∧ c ≠ 'E'

theorem ends_cons {c : Char} (h : c ∈ [',', ']', '}', ' ', '\n']) (cs : List Char) :
    Ends (c :: cs) := by
  intro d hd
  cases hd
  simp only [List.mem_cons, List.not_mem_nil, or_false] at h
  rcases h with rfl | rfl | rfl | rfl | rfl <;> decide

theorem ends_nil : Ends [] := nofun

/-- The digits of a number, which begin with a zero only for zero itself. -/
theorem toDigits_eq_cons (n : Nat) : ∃ d ds, Nat.toDigits 10 n = d :: ds ∧
    (∀ c ∈ d :: ds, Text.isAsciiDigit c = true) ∧ (d = '0' → ds = []) := by
  have hall : ∀ c ∈ Nat.toDigits 10 n, Text.isAsciiDigit c = true := by
    intro c hc
    have h := Nat.isDigit_of_mem_toDigits (by decide) (by decide) hc
    simpa [Text.isAsciiDigit, Char.isDigit, Char.le_def] using h
  have head : ∃ d ds, Nat.toDigits 10 n = d :: ds ∧ (d = '0' → ds = []) ∧ (0 < n → d ≠ '0') := by
    clear hall
    induction n using Nat.strongRecOn with
    | ind n ih =>
        by_cases hn : n < 10
        · rw [Nat.toDigits_of_lt_base hn]
          refine ⟨_, _, rfl, fun _ => rfl, ?_⟩
          clear ih
          revert n
          decide
        · rw [Nat.toDigits_of_base_le (by decide) (by omega)]
          obtain ⟨d, ds, hd, -, hz⟩ := ih (n / 10) (by omega)
          have hz := hz (by omega)
          rw [hd]
          exact ⟨d, _, rfl, fun h => absurd h hz, fun _ => hz⟩
  obtain ⟨d, ds, hd, hz, -⟩ := head
  exact ⟨d, ds, hd, hd ▸ hall, hz⟩

theorem ofAsciiDigits_toDigits (n : Nat) : Text.ofAsciiDigits (Nat.toDigits 10 n) = n := by
  rw [Text.ofAsciiDigits, Text.ofDigitValues, List.foldl_map]
  exact Nat.ofDigitChars_eq_foldl.symm.trans Nat.ofDigitChars_ten_toDigits

theorem span_append {p : Char → Bool} {ds rest : List Char} (hd : ∀ c ∈ ds, p c = true)
    (hr : ∀ c ∈ rest.head?, p c = false) : (ds ++ rest).span p = (ds, rest) := by
  rw [List.span_eq_takeWhile_dropWhile, List.takeWhile_append_of_pos hd,
    List.dropWhile_append_of_pos hd]
  cases rest with
  | nil => simp
  | cons c rest => simp [hr c rfl]

/-- A number is read back from its digits. -/
theorem readNumber?_toDigits (negative : Bool) (n : Nat) {rest : List Char} (hr : Ends rest) :
    readNumber? negative (Nat.toDigits 10 n ++ rest) =
      some (.int (if negative then -(n : Int) else n), rest) := by
  obtain ⟨d, ds, hd, hall, hz⟩ := toDigits_eq_cons n
  have hspan : (d :: (ds ++ rest)).span Text.isAsciiDigit = (d :: ds, rest) :=
    span_append hall fun c hc => (hr c hc).1
  have hwhole : wholePart? (Nat.toDigits 10 n ++ rest) = some (Nat.toDigits 10 n, rest) := by
    rw [hd, List.cons_append]
    unfold wholePart?
    split
    · rename_i h
      obtain ⟨rfl, rfl⟩ := List.cons.inj h
      rw [hz rfl, List.nil_append]
    · rename_i h
      obtain ⟨rfl, rfl⟩ := List.cons.inj h
      rw [if_pos (hall _ (.head _)), hspan]
    · rename_i h
      cases h
  have hfraction : fraction rest = ([], rest) := by
    unfold fraction
    split
    · exact absurd rfl (hr '.' rfl).2.1
    · rfl
  have hexponent : exponent? rest = none := by
    unfold exponent?
    split
    · rename_i e _
      have he := hr e rfl
      rw [if_neg (by simpa using he.2.2)]
    · rfl
  rw [readNumber?, hwhole]
  simp [hfraction, hexponent, ofAsciiDigits_toDigits]

/-- A word that begins with a digit is a number. -/
theorem readWord?_digit {d : Char} (hd : Text.isAsciiDigit d = true) (cs : List Char) :
    readWord? (d :: cs) = readNumber? false (d :: cs) := by
  have digit {c : Char} (hc : Text.isAsciiDigit c = false) : d ≠ c := fun h => by
    rw [h, hc] at hd
    cases hd
  unfold readWord?
  split
  all_goals first
    | rfl
    | (rename_i h; exact absurd (List.cons.inj h).1 (digit (by decide)))

/-- So is one that begins with a minus sign and a digit. -/
theorem readWord?_minus {d : Char} (hd : Text.isAsciiDigit d = true) (cs : List Char) :
    readWord? ('-' :: d :: cs) = readNumber? true (d :: cs) := by
  have digit {c : Char} (hc : Text.isAsciiDigit c = false) : d ≠ c := fun h => by
    rw [h, hc] at hd
    cases hd
  unfold readWord?
  split
  all_goals first
    | (rename_i h; cases (List.cons.inj h).1; done)
    | (rename_i h; exact absurd (List.cons.inj (List.cons.inj h).2).1 (digit (by decide)))
    | (rename_i h; obtain ⟨-, rfl⟩ := List.cons.inj h; rfl)
    | (rename_i h; exact absurd rfl (h _))

theorem readWord?_ofInt (i : Int) {rest : List Char} (hr : Ends rest) :
    readWord? ((Text.ofInt i).toList ++ rest) = some (.int i, rest) := by
  cases i with
  | ofNat n =>
      obtain ⟨d, ds, hd, hall, -⟩ := toDigits_eq_cons n
      have hread := readNumber?_toDigits false n hr
      rw [Text.ofInt, Nat.toList_repr]
      rw [hd, List.cons_append] at hread ⊢
      exact (readWord?_digit (hall d (.head _)) _).trans hread
  | negSucc n =>
      obtain ⟨d, ds, hd, hall, -⟩ := toDigits_eq_cons (n + 1)
      have hread := readNumber?_toDigits true (n + 1) hr
      have htext : (Text.ofInt (.negSucc n)).toList = '-' :: Nat.toDigits 10 (n + 1) := by
        rw [Text.ofInt, String.toList_append, Nat.toList_repr]
        rfl
      rw [htext]
      rw [hd, List.cons_append] at hread
      rw [hd, List.cons_append, List.cons_append]
      exact (readWord?_minus (hall d (.head _)) _).trans hread

/-- The text of an integer begins with a minus sign or a digit. -/
theorem ofInt_eq_cons (i : Int) : ∃ c cs, (Text.ofInt i).toList = c :: cs ∧
    (c = '-' ∨ Text.isAsciiDigit c = true) := by
  cases i with
  | ofNat n =>
      obtain ⟨d, ds, hd, hall, -⟩ := toDigits_eq_cons n
      exact ⟨d, ds, by rw [Text.ofInt, Nat.toList_repr, hd], .inr (hall d (.head _))⟩
  | negSucc n =>
      refine ⟨'-', Nat.toDigits 10 (n + 1), ?_, .inl rfl⟩
      rw [Text.ofInt, String.toList_append, Nat.toList_repr]
      rfl

/-! ## The parts of a number -/

/-- The digits before the point: at least one, and no zero before another one. -/
structure Whole (ds : List Char) : Prop where
  /-- There is a digit. -/
  ne_nil : ds ≠ []
  /-- All are digits. -/
  digits : ∀ c ∈ ds, Text.isAsciiDigit c = true
  /-- A zero stands alone. -/
  zero : ds.head? = some '0' → ds = ['0']

/-- No digit follows. -/
def Stops (cs : List Char) : Prop := ∀ c ∈ cs.head?, Text.isAsciiDigit c = false

theorem Ends.stops {cs : List Char} (h : Ends cs) : Stops cs := fun c hc => (h c hc).1

theorem stops_cons {c : Char} (h : Text.isAsciiDigit c = false) (cs : List Char) :
    Stops (c :: cs) := by
  intro d hd
  cases hd
  exact h

theorem wholePart?_append {ds rest : List Char} (h : Whole ds) (hr : Stops rest) :
    wholePart? (ds ++ rest) = some (ds, rest) := by
  obtain ⟨hne, hd, hz⟩ := h
  cases ds with
  | nil => exact absurd rfl hne
  | cons d ds =>
      rw [List.cons_append]
      unfold wholePart?
      split
      · rename_i h
        obtain ⟨rfl, rfl⟩ := List.cons.inj h
        rw [hz rfl]
        rw [List.cons.inj (hz rfl) |>.2]
        rfl
      · rename_i h
        obtain ⟨rfl, rfl⟩ := List.cons.inj h
        rw [if_pos (hd _ (.head _))]
        exact congrArg some (span_append hd hr)
      · rename_i h
        cases h

theorem fraction_point {fs rest : List Char} (hne : fs ≠ [])
    (hd : ∀ c ∈ fs, Text.isAsciiDigit c = true) (hr : Stops rest) :
    fraction ('.' :: (fs ++ rest)) = (fs, rest) := by
  cases fs with
  | nil => exact absurd rfl hne
  | cons f fs =>
      rw [List.cons_append, fraction, if_pos (hd _ (.head _)), ← List.cons_append,
        span_append hd hr]

theorem fraction_none {cs : List Char} (h : ∀ c ∈ cs.head?, c ≠ '.') : fraction cs = ([], cs) := by
  unfold fraction
  split
  · exact absurd rfl (h '.' rfl)
  · rfl

theorem exponent?_none {cs : List Char} (h : ∀ c ∈ cs.head?, c ≠ 'e' ∧ c ≠ 'E') :
    exponent? cs = none := by
  unfold exponent?
  split
  · rename_i e _
    rw [if_neg (by simpa using h e rfl)]
  · rfl

theorem exponent?_mark (negative : Bool) {ps rest : List Char} (hne : ps ≠ [])
    (hd : ∀ c ∈ ps, Text.isAsciiDigit c = true) (hr : Stops rest) :
    exponent? ('e' :: (if negative then '-' else '+') :: (ps ++ rest)) =
      some (if negative then -(Text.ofAsciiDigits ps : Int) else Text.ofAsciiDigits ps, rest) := by
  have hspan := span_append hd hr
  have hempty : ps.isEmpty = false := by simpa using hne
  cases negative <;>
    simp only [exponent?, beq_self_eq_true, Bool.true_or, if_true, Bool.false_eq_true, if_false,
      hspan, hempty]

/-- A number with a point is a floating point number. -/
theorem readNumber?_point (negative : Bool) (ds fs : List Char) {rest : List Char} (hw : Whole ds)
    (hne : fs ≠ []) (hd : ∀ c ∈ fs, Text.isAsciiDigit c = true) (hr : Ends rest) :
    readNumber? negative (ds ++ '.' :: (fs ++ rest)) =
      some (.float (Binary64.ofDecimal negative (Text.ofAsciiDigits (ds ++ fs)) (-fs.length)),
        rest) := by
  have hpoint : Stops ('.' :: (fs ++ rest)) := stops_cons (by decide) _
  have hempty : fs.isEmpty = false := by simpa using hne
  rw [readNumber?, wholePart?_append hw hpoint]
  simp [fraction_point hne hd hr.stops, exponent?_none fun c hc => (hr c hc).2.2, hempty]

/-- A number with a power of ten is a floating point number. -/
theorem readNumber?_power (negative : Bool) (ds fs ps : List Char) {rest : List Char} (hw : Whole ds)
    (hd : ∀ c ∈ fs, Text.isAsciiDigit c = true) (hne : ps ≠ [])
    (hp : ∀ c ∈ ps, Text.isAsciiDigit c = true) (hr : Ends rest) (down : Bool) :
    readNumber? negative (ds ++ ((if fs.isEmpty then [] else '.' :: fs) ++
      'e' :: (if down then '-' else '+') :: (ps ++ rest))) =
      some (.float (Binary64.ofDecimal negative (Text.ofAsciiDigits (ds ++ fs))
        ((if down then -(Text.ofAsciiDigits ps : Int) else Text.ofAsciiDigits ps) - fs.length)),
          rest) := by
  have hexponent := exponent?_mark down hne hp hr.stops
  obtain ⟨tail, htail⟩ : ∃ tail, 'e' :: (if down then '-' else '+') :: (ps ++ rest) = tail := ⟨_, rfl⟩
  have hstops : Stops tail := htail ▸ stops_cons (by decide) _
  have hnone : ∀ c ∈ tail.head?, c ≠ '.' := by
    rw [← htail]
    intro c hc
    cases hc
    decide
  rw [htail] at hexponent ⊢
  cases fs with
  | nil =>
      rw [readNumber?]
      simp only [List.isEmpty_nil, if_true, List.nil_append]
      rw [wholePart?_append hw hstops]
      simp [fraction_none hnone, hexponent]
  | cons f fs =>
      rw [readNumber?]
      simp only [List.isEmpty_cons, Bool.false_eq_true, if_false, List.cons_append]
      rw [wholePart?_append hw (stops_cons (by decide) _)]
      have hfraction := fraction_point (List.cons_ne_nil f fs) hd hstops
      rw [List.cons_append] at hfraction
      simp [hfraction, hexponent]

/-! ## Values of digits -/

theorem ofDigitValues_append (xs ys : List Nat) :
    Text.ofDigitValues (xs ++ ys) = Text.ofDigitValues xs * 10 ^ ys.length + Text.ofDigitValues ys := by
  have foldl_add (ys : List Nat) : ∀ n, ys.foldl (fun n d => 10 * n + d) n =
      n * 10 ^ ys.length + ys.foldl (fun n d => 10 * n + d) 0 := by
    induction ys with
    | nil => simp
    | cons y ys ih =>
        intro n
        rw [List.foldl_cons, ih, List.foldl_cons, ih (10 * 0 + y), List.length_cons, pow_succ]
        ring
  rw [Text.ofDigitValues, List.foldl_append, foldl_add]
  rfl

theorem ofAsciiDigits_append (as bs : List Char) :
    Text.ofAsciiDigits (as ++ bs) =
      Text.ofAsciiDigits as * 10 ^ bs.length + Text.ofAsciiDigits bs := by
  rw [Text.ofAsciiDigits, List.map_append, ofDigitValues_append, List.length_map]
  rfl

theorem ofAsciiDigits_zeros (k : Nat) : Text.ofAsciiDigits (List.replicate k '0') = 0 := by
  induction k with
  | zero => rfl
  | succ k ih =>
      rw [List.replicate_succ']
      rw [ofAsciiDigits_append, ih]
      rfl

/-! ## Floating point numbers -/

theorem digits_zeros (k : Nat) {ds : List Char} (hd : ∀ c ∈ ds, Text.isAsciiDigit c = true) :
    ∀ c ∈ List.replicate k '0' ++ ds, Text.isAsciiDigit c = true := by
  intro c hc
  rcases List.mem_append.mp hc with hc | hc
  · rw [List.eq_of_mem_replicate hc]
    decide
  · exact hd c hc

/-- The digits of a positive number do not begin with a zero. -/
structure Leads (n : Nat) (ds : List Char) : Prop where
  /-- The digits spell the number. -/
  value : Text.ofAsciiDigits ds = n
  /-- All are digits. -/
  digits : ∀ c ∈ ds, Text.isAsciiDigit c = true
  /-- There is a first one, other than zero. -/
  head : ∃ d rest, ds = d :: rest ∧ d ≠ '0'

theorem leads_toDigits {n : Nat} (hn : 0 < n) : Leads n (Nat.toDigits 10 n) := by
  obtain ⟨d, ds, hd, hall, hz⟩ := toDigits_eq_cons n
  refine ⟨ofAsciiDigits_toDigits n, hd ▸ hall, d, ds, hd, fun h => ?_⟩
  have hvalue := ofAsciiDigits_toDigits n
  rw [hd, hz h, h] at hvalue
  exact hn.ne hvalue

/-- Digits that lead a number make its whole part, alone or with more digits after them. -/
theorem Leads.whole {n : Nat} {ds : List Char} (h : Leads n ds) (k : Nat) (more : List Char)
    (hd : ∀ c ∈ more, Text.isAsciiDigit c = true) (hk : k ≠ 0) : Whole (ds.take k ++ more) := by
  obtain ⟨d, rest, rfl, hne⟩ := h.head
  obtain ⟨j, rfl⟩ := Nat.exists_eq_succ_of_ne_zero hk
  refine ⟨nofun, fun c hc => ?_, fun hz => absurd (Option.some.inj hz) hne⟩
  rcases List.mem_append.mp hc with hc | hc
  · exact h.digits c (List.mem_of_mem_take hc)
  · exact hd c hc

theorem digits_zero : ∀ c ∈ ['0'], Text.isAsciiDigit c = true :=
  List.forall_mem_singleton.mpr (by decide)

theorem whole_zero : Whole ['0'] := ⟨nofun, digits_zero, fun _ => rfl⟩

/-- A decimal that is written with a point at its place is read back. -/
theorem readNumber?_positional (negative : Bool) {n : Nat} {ds rest : List Char} {x : Int}
    (hds : Leads n ds) (hr : Ends rest) : ∃ c k,
      readNumber? negative (FloatStyle.plain.positional ds (x + ds.length - 1) ++ rest) =
        some (.float (Binary64.ofDecimal negative c k), rest) ∧ (c * 10 ^ k : ℚ) = n * 10 ^ x := by
  obtain ⟨first, hfirst⟩ : ∃ first, x + ds.length - 1 = first := ⟨_, rfl⟩
  have hlen : 0 < ds.length := by
    obtain ⟨d, rest, rfl, -⟩ := hds.head
    exact Nat.succ_pos _
  rw [hfirst, FloatStyle.positional]
  split
  · -- All digits are after the point.
    rename_i hneg
    have hread := readNumber?_point negative ['0'] (List.replicate (-first - 1).toNat '0' ++ ds)
      whole_zero (by simpa using fun _ => List.ne_nil_of_length_pos hlen) (digits_zeros _ hds.digits) hr
    refine ⟨_, _, hread, ?_⟩
    rw [ofAsciiDigits_append, ofAsciiDigits_append, ofAsciiDigits_zeros, hds.value]
    have hk : -((List.replicate (-first - 1).toNat '0' ++ ds).length : Int) = x := by
      rw [List.length_append, List.length_replicate]
      push_cast
      omega
    rw [hk]
    simp [Text.ofAsciiDigits, Text.ofDigitValues, Text.asciiDigitValue]
  · rename_i hpos
    dsimp only
    split
    · -- Zeros fill up the digits before the point.
      rename_i hfill
      obtain ⟨z, hz⟩ : ∃ z, first.toNat + 1 - ds.length = z := ⟨_, rfl⟩
      have hx : x = z := by omega
      have hw : Whole (ds ++ List.replicate z '0') := by
        have h := hds.whole ds.length (List.replicate z '0' ++ []) (digits_zeros z nofun) hlen.ne'
        rwa [List.take_length, List.append_nil] at h
      have hread :=
        readNumber?_point negative (ds ++ List.replicate z '0') ['0'] hw nofun digits_zero hr
      have htext : ds ++ List.replicate z '0' ++ (if FloatStyle.plain.markWhole then ['.', '0'] else [])
          ++ rest = ds ++ List.replicate z '0' ++ '.' :: (['0'] ++ rest) := by
        rw [List.append_assoc]
        rfl
      rw [hz, htext]
      refine ⟨_, _, hread, ?_⟩
      rw [ofAsciiDigits_append, ofAsciiDigits_append, ofAsciiDigits_zeros, hds.value, hx,
        List.length_replicate, zpow_natCast]
      norm_num [Text.ofAsciiDigits, Text.ofDigitValues, Text.asciiDigitValue]
      ring
    · -- The point stands between the digits.
      rename_i hfill
      obtain ⟨whole, hwhole⟩ : ∃ whole, first.toNat + 1 = whole := ⟨_, rfl⟩
      rw [hwhole] at hfill ⊢
      have hw : Whole (ds.take whole) := by
        have h := hds.whole whole [] nofun (by omega)
        rwa [List.append_nil] at h
      have hread := readNumber?_point negative (ds.take whole) (ds.drop whole) hw
        (List.ne_nil_of_length_pos (by rw [List.length_drop]; omega))
        (fun c hc => hds.digits c (List.mem_of_mem_drop hc)) hr
      rw [List.append_assoc, List.cons_append]
      refine ⟨_, _, hread, ?_⟩
      rw [List.take_append_drop, hds.value, List.length_drop]
      congr 2
      omega

/-- A decimal that is written with a power of ten is read back. -/
theorem readNumber?_scientific (negative : Bool) {n : Nat} {ds rest : List Char} {x : Int}
    (hds : Leads n ds) (hr : Ends rest) :
    readNumber? negative (FloatStyle.plain.scientific ds (x + ds.length - 1) ++ rest) =
      some (.float (Binary64.ofDecimal negative n x), rest) := by
  obtain ⟨first, hfirst⟩ : ∃ first, x + ds.length - 1 = first := ⟨_, rfl⟩
  obtain ⟨d, fs, rfl, hne⟩ := hds.head
  have hw : Whole [d] := by
    have h := hds.whole 1 [] nofun (by decide)
    exact h
  obtain ⟨e, es, he, hdigits, -⟩ := toDigits_eq_cons first.natAbs
  have hpower : Text.decimalDigits first.natAbs = Nat.toDigits 10 first.natAbs := Nat.toList_repr
  obtain ⟨ps, hps⟩ : ∃ ps, List.replicate (2 - (Nat.toDigits 10 first.natAbs).length) '0' ++
      Nat.toDigits 10 first.natAbs = ps := ⟨_, rfl⟩
  have hvalue : Text.ofAsciiDigits ps = first.natAbs := by
    rw [← hps, ofAsciiDigits_append, ofAsciiDigits_zeros, ofAsciiDigits_toDigits, Nat.zero_mul,
      Nat.zero_add]
  have hread := readNumber?_power negative [d] fs ps hw
    (fun c hc => hds.digits c (.tail _ hc)) (by rw [← hps, he]; simp)
    (hps ▸ digits_zeros _ (he ▸ hdigits)) hr (first < 0)
  have hx : (if decide (first < 0) = true then -(Text.ofAsciiDigits ps : Int)
      else Text.ofAsciiDigits ps) - fs.length = x := by
    rw [hvalue, ← Int.natAbs_natCast fs.length]
    rw [List.length_cons] at hfirst
    push_cast at hfirst
    split
    · rename_i h
      have h := of_decide_eq_true h
      omega
    · rename_i h
      have h := of_decide_eq_false (Bool.eq_false_of_not_eq_true h)
      omega
  rw [hx, show [d] ++ fs = d :: fs from rfl, hds.value] at hread
  have htext : FloatStyle.plain.scientific (d :: fs) first ++ rest =
      [d] ++ ((if fs.isEmpty then [] else '.' :: fs) ++
        'e' :: (if decide (first < 0) = true then '-' else '+') :: (ps ++ rest)) := by
    rw [← hps, ← hpower]
    unfold FloatStyle.scientific
    cases fs <;> simp [FloatStyle.plain]
  rw [hfirst, htext, hread]

/-- A decimal begins with a digit, in either form. -/
theorem positive_eq_cons {n : Nat} {ds : List Char} (hds : Leads n ds) (first : Int) :
    (∃ c cs, FloatStyle.plain.positional ds first = c :: cs ∧ Text.isAsciiDigit c = true) ∧
      ∃ c cs, FloatStyle.plain.scientific ds first = c :: cs ∧ Text.isAsciiDigit c = true := by
  obtain ⟨d, fs, rfl, -⟩ := hds.head
  have hd := hds.digits d (.head _)
  constructor
  · unfold FloatStyle.positional
    split
    · exact ⟨_, _, rfl, by decide⟩
    · dsimp only
      split
      · exact ⟨_, _, rfl, hd⟩
      · exact ⟨_, _, rfl, hd⟩
  · cases fs <;> exact ⟨_, _, rfl, hd⟩

/-- A positive number is read back, and begins with a digit. -/
theorem readNumber?_positive {m : Nat} {e : Int} (hm : Binary64.Regular m e) :
    (∃ c cs, FloatStyle.plain.positive m e = c :: cs ∧ Text.isAsciiDigit c = true) ∧
      ∀ (negative : Bool) {rest : List Char}, Ends rest →
        readNumber? negative (FloatStyle.plain.positive m e ++ rest) =
          some (.float (.finite negative m e), rest) := by
  have hds := leads_toDigits ((Binary64.inInterval_shortest hm).pos hm)
  have hdigits (n : Nat) : Text.decimalDigits n = Nat.toDigits 10 n := Nat.toList_repr
  obtain ⟨hpositional, hscientific⟩ := positive_eq_cons hds
    ((Binary64.shortest m e).exponent + (Nat.toDigits 10 (Binary64.shortest m e).digits).length - 1)
  rw [FloatStyle.positive, hdigits]
  split
  · refine ⟨hpositional, fun negative rest hr => ?_⟩
    obtain ⟨c, k, hread, hvalue⟩ :=
      readNumber?_positional negative (x := (Binary64.shortest m e).exponent) hds hr
    rw [hread, Binary64.ofDecimal_shortest hm hvalue]
  · refine ⟨hscientific, fun negative rest hr => ?_⟩
    rw [readNumber?_scientific negative hds hr, Binary64.ofDecimal_shortest hm rfl]

/-- The text of a number, with its sign apart. -/
theorem floatText_finite (negative : Bool) (m : Nat) (e : Int) :
    floatText (.finite negative m e) = (if negative then ['-'] else []) ++
      (if m = 0 then ['0', '.', '0'] else FloatStyle.plain.positive m e) := by
  have hrender : floatText (.finite negative m e) =
      (Binary64.render .plain (.finite negative m e)).toList := rfl
  rw [hrender, Binary64.render, String.toList_ofList]
  by_cases hm : m = 0 <;> simp [hm, FloatStyle.plain]

/-- The digits of a finite number are read back, and begin with a digit. -/
theorem readNumber?_digits {m : Nat} {e : Int}
    (hm : m = 0 ∧ e = Binary64.minExponent ∨ Binary64.Regular m e) : ∃ c cs,
      (if m = 0 then ['0', '.', '0'] else FloatStyle.plain.positive m e) = c :: cs ∧
        Text.isAsciiDigit c = true ∧ ∀ (negative : Bool) {rest : List Char}, Ends rest →
          readNumber? negative (c :: (cs ++ rest)) = some (.float (.finite negative m e), rest) := by
  rcases hm with ⟨rfl, rfl⟩ | hm
  · refine ⟨'0', ['.', '0'], rfl, by decide, fun negative rest hr => ?_⟩
    exact readNumber?_point negative ['0'] ['0'] whole_zero nofun digits_zero hr
  · obtain ⟨⟨c, cs, hcons, hc⟩, hread⟩ := readNumber?_positive hm
    rw [if_neg hm.pos.ne', hcons]
    exact ⟨c, cs, rfl, hc, fun negative rest hr => List.cons_append ▸ hcons ▸ hread negative hr⟩

/-- A number is read back from its text. -/
theorem readWord?_floatText {x : Binary64} (hx : x.Tidy) {rest : List Char} (hr : Ends rest) :
    readWord? (floatText x ++ rest) = some (.float x, rest) := by
  cases x with
  | nan => rfl
  | infinite negative => cases negative <;> rfl
  | finite negative m e =>
      obtain ⟨c, cs, hcons, hc, hread⟩ := readNumber?_digits hx
      rw [floatText_finite, hcons]
      cases negative
      · exact (readWord?_digit hc _).trans (hread false hr)
      · exact (readWord?_minus hc _).trans (hread true hr)

/-- The text of a number begins like that of an integer, or with a name. -/
theorem floatText_eq_cons {x : Binary64} (hx : x.Tidy) : ∃ c cs, floatText x = c :: cs ∧
    (c = 'N' ∨ c = 'I' ∨ c = '-' ∨ Text.isAsciiDigit c = true) := by
  cases x with
  | nan => exact ⟨_, _, rfl, .inl rfl⟩
  | infinite negative =>
      cases negative
      · exact ⟨_, _, rfl, .inr (.inl rfl)⟩
      · exact ⟨_, _, rfl, .inr (.inr (.inl rfl))⟩
  | finite negative m e =>
      obtain ⟨c, cs, hcons, hc, -⟩ := readNumber?_digits hx
      rw [floatText_finite, hcons]
      cases negative
      · exact ⟨c, cs, rfl, .inr (.inr (.inr hc))⟩
      · exact ⟨'-', c :: cs, rfl, .inr (.inr (.inl rfl))⟩

end IntentBuild.Json
