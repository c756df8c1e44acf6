import Mathlib.Data.Nat.Digits.Defs
import IntentBuild.Proofs.Json.RoundTrip
import IntentBuild.Time.Stamp

/-!
# Stamps in documents are read back

A stamp whose clock shows a year from 1 to 9999 is written to a document and read back as it was,
with its offset (`parse?_document`).

Days are counted in eras of 400 years that begin in March.  A day of an era lies between the starts of
its year and of the next one (`dayOfYear_bounds`), so the date of a day leads back to the day
(`daysTo_civil`).
-/

namespace IntentBuild.Stamp

/-! ## Dates -/

/-- The days of an era before its year. -/
def daysBefore (year : Int) : Int := 365 * year + year / 4 - year / 100

/-- The year of an era that holds a day. -/
def yearOfDay (day : Int) : Int := (day - day / 1460 + day / 36524 - day / 146096) / 365

theorem yearOfDay_mono {a b : Int} (h : a ≤ b) : yearOfDay a ≤ yearOfDay b := by
  have hb : b / 146096 = b / 36524 / 4 := by omega
  have ha : a / 146096 = a / 36524 / 4 := by omega
  have hshort : b / 1460 - a / 1460 ≤ b - a := by omega
  have hcentury : a / 36524 ≤ b / 36524 := by omega
  have hlong : b / 146096 - a / 146096 ≤ b / 36524 - a / 36524 := by omega
  unfold yearOfDay
  exact Int.ediv_le_ediv (by decide) (by omega)

/-- The first and the last day of a year lie in it. -/
theorem yearOfDay_daysBefore : ∀ y : Fin 400, yearOfDay (daysBefore (y : Nat)) = (y : Nat) ∧
    yearOfDay (daysBefore ((y : Nat) + 1) - 1) = (y : Nat) := by
  decide +kernel

/-- A day of an era lies between the starts of its year and the next one.  The last year of an era
has a day more. -/
theorem dayOfYear_bounds {day : Int} (h₀ : 0 ≤ day) (h₁ : day < 146097) :
    0 ≤ yearOfDay day ∧ yearOfDay day < 400 ∧ daysBefore (yearOfDay day) ≤ day ∧
      (day < daysBefore (yearOfDay day + 1) ∨ yearOfDay day = 399) := by
  have hfirst : 0 ≤ yearOfDay day := by
    have := yearOfDay_mono h₀
    exact this
  have hlast : yearOfDay day < 400 := by
    have := yearOfDay_mono (show day ≤ 146096 by omega)
    have h : yearOfDay 146096 = 399 := by decide
    omega
  obtain ⟨y, hy⟩ : ∃ y : Nat, yearOfDay day = y := ⟨_, (Int.toNat_of_nonneg hfirst).symm⟩
  refine ⟨hfirst, hlast, ?_, ?_⟩
  · by_contra hlt
    obtain ⟨z, rfl⟩ : ∃ z, y = z + 1 := by
      cases y with
      | zero => rw [hy] at hlt; simp [daysBefore] at hlt; omega
      | succ z => exact ⟨z, rfl⟩
    have hz := (yearOfDay_daysBefore ⟨z, by omega⟩).2
    rw [hy] at hlt
    have hmono := yearOfDay_mono (show day ≤ daysBefore ((z : Int) + 1) - 1 by
      push_cast at hlt; omega)
    dsimp only at hz
    omega
  · by_cases h : yearOfDay day = 399
    · exact .inr h
    · refine .inl ?_
      by_contra hge
      have hz := (yearOfDay_daysBefore ⟨y + 1, by omega⟩).1
      rw [hy] at hge
      have hmono := yearOfDay_mono (show daysBefore ((y : Int) + 1) ≤ day by omega)
      dsimp only at hz
      push_cast at hz
      omega

/-- Only a leap year has a day more. -/
theorem dayOfYear_le {day : Int} (h₀ : 0 ≤ day) (h₁ : day < 146097) (era : Int) :
    day - daysBefore (yearOfDay day) ≤ if isLeap (yearOfDay day + era * 400 + 1) then 365 else 364 := by
  obtain ⟨hy₀, hy₁, hstart, hend⟩ := dayOfYear_bounds h₀ h₁
  generalize yearOfDay day = y at *
  unfold daysBefore at *
  have hlong : y = 399 → isLeap (y + era * 400 + 1) = true := by
    rintro rfl
    simp [isLeap]
    omega
  split
  · omega
  · rename_i hleap
    have hy : y ≠ 399 := fun h => hleap (hlong h)
    have hquarter : (y + era * 400 + 1) % 4 = (y + 1) % 4 := by omega
    have hcentury : (y + era * 400 + 1) % 100 = (y + 1) % 100 := by omega
    have hnext : (y + 1) / 4 = y / 4 ∨ (y + 1) / 100 = y / 100 + 1 := by
      simp only [isLeap, hquarter, hcentury, Bool.and_eq_true, Bool.or_eq_true, beq_iff_eq,
        bne_iff_ne] at hleap
      omega
    omega

/-- The month of a row of months that starts with March. -/
def monthOf (mp : Int) : Int := if mp < 10 then mp + 3 else mp - 9

theorem civil_eq (days : Int) : ∃ era doe, days = era * 146097 + doe - 719468 ∧ 0 ≤ doe ∧
    doe < 146097 ∧ ∀ doy mp, doy = doe - daysBefore (yearOfDay doe) → mp = (5 * doy + 2) / 153 →
      civil days = (yearOfDay doe + era * 400 + (if monthOf mp ≤ 2 then 1 else 0), monthOf mp,
        doy - (153 * mp + 2) / 5 + 1) := by
  have hera : (days + 719468).fdiv 146097 = (days + 719468) / 146097 :=
    Int.fdiv_eq_ediv_of_nonneg _ (by decide)
  refine ⟨(days + 719468) / 146097, days + 719468 - (days + 719468) / 146097 * 146097, by omega,
    by omega, by omega, ?_⟩
  rintro _ _ rfl rfl
  unfold civil
  simp only [hera]
  rfl

theorem daysTo_eq {era year month day : Int} (h₀ : 0 ≤ year) (h₁ : year < 400) :
    daysTo (year + era * 400 + (if month ≤ 2 then 1 else 0)) month day =
      era * 146097 + (daysBefore year +
        ((153 * (if month > 2 then month - 3 else month + 9) + 2) / 5 + day - 1)) - 719468 := by
  have hyear : (if month ≤ 2 then year + era * 400 + (if month ≤ 2 then 1 else 0) - 1
      else year + era * 400 + (if month ≤ 2 then 1 else 0)) = year + era * 400 := by
    split <;> omega
  have hera : (year + era * 400).fdiv 400 = era := by
    rw [Int.fdiv_eq_ediv_of_nonneg _ (by decide)]
    omega
  unfold daysTo
  simp only [hyear, hera, daysBefore]
  rw [show year + era * 400 - era * 400 = year by omega]
  omega

theorem daysTo_civil (days : Int) : ∃ year month day, civil days = (year, month, day) ∧
    daysTo year month day = days ∧ 1 ≤ month ∧ month ≤ 12 ∧ 1 ≤ day ∧ day ≤ daysIn year month := by
  obtain ⟨era, doe, rfl, h₀, h₁, hcivil⟩ := civil_eq days
  obtain ⟨hy₀, hy₁, hstart, -⟩ := dayOfYear_bounds h₀ h₁
  have hlong := dayOfYear_le h₀ h₁ era
  obtain ⟨doy, hdoy⟩ : ∃ doy, doy = doe - daysBefore (yearOfDay doe) := ⟨_, rfl⟩
  obtain ⟨mp, hmp⟩ : ∃ mp, mp = (5 * doy + 2) / 153 := ⟨_, rfl⟩
  have hdoy₁ : doy ≤ 365 := by
    rw [← hdoy] at hlong
    split at hlong <;> omega
  refine ⟨_, _, _, hcivil doy mp hdoy hmp, ?_, ?_, ?_, ?_, ?_⟩
  · rw [daysTo_eq hy₀ hy₁]
    unfold monthOf
    split <;> split <;> omega
  · unfold monthOf
    split <;> omega
  · unfold monthOf
    split <;> omega
  · omega
  · rw [← hdoy] at hlong
    obtain h | h : mp ≤ 10 ∨ mp = 11 := by omega
    · have hm : monthOf mp ≠ 2 := by unfold monthOf; split <;> omega
      have hin : daysIn (yearOfDay doe + era * 400 + if monthOf mp ≤ 2 then 1 else 0) (monthOf mp) =
          if monthOf mp = 4 ∨ monthOf mp = 6 ∨ monthOf mp = 9 ∨ monthOf mp = 11 then 30 else 31 := by
        simp [daysIn, hm, or_assoc]
      rw [hin]
      unfold monthOf
      split <;> split <;> omega
    · subst h
      have hin : daysIn (yearOfDay doe + era * 400 + if monthOf 11 ≤ 2 then 1 else 0) (monthOf 11) =
          if isLeap (yearOfDay doe + era * 400 + 1) then 29 else 28 := rfl
      rw [hin]
      split at hlong
      · rename_i hl
        rw [if_pos hl]
        omega
      · rename_i hl
        rw [if_neg hl]
        omega

/-! ## Digits -/

/-- A number of exactly `n` digits. -/
theorem padded_spec {n : Nat} {v : Int} (h₀ : 0 ≤ v) (h₁ : v < 10 ^ n) (hn : 0 < n) :
    (padded n v).length = n ∧ (∀ c ∈ padded n v, Text.isAsciiDigit c = true) ∧
      (Text.ofAsciiDigits (padded n v) : Int) = v := by
  have hdigits : Text.decimalDigits v.toNat = Nat.toDigits 10 v.toNat := by
    simp [Text.decimalDigits, Nat.repr]
  obtain ⟨d, ds, hd, hall, -⟩ := Json.toDigits_eq_cons v.toNat
  have hlen : (Nat.toDigits 10 v.toNat).length ≤ n :=
    Nat.toDigits_length 10 _ _ hn (by have := Int.toNat_of_nonneg h₀; zify; rw [this]; exact h₁)
  unfold padded
  simp only [hdigits]
  refine ⟨by simp [hlen], fun c hc => ?_, ?_⟩
  · rcases List.mem_append.mp hc with hc | hc
    · rw [List.eq_of_mem_replicate hc]; rfl
    · exact hall c (hd ▸ hc)
  · generalize n - (Nat.toDigits 10 v.toNat).length = m
    have hzero : Text.ofAsciiDigits (List.replicate m '0' ++ Nat.toDigits 10 v.toNat) =
        Text.ofAsciiDigits (Nat.toDigits 10 v.toNat) := by
      induction m with
      | zero => rfl
      | succ m ih => rw [← ih]; rfl
    rw [hzero, Json.ofAsciiDigits_toDigits, Int.toNat_of_nonneg h₀]

theorem fixedDigits?_padded {n : Nat} {v : Int} (h₀ : 0 ≤ v) (h₁ : v < 10 ^ n) (hn : 0 < n)
    (rest : List Char) : fixedDigits? n (padded n v ++ rest) = some (v, rest) := by
  obtain ⟨hlen, hall, hv⟩ := padded_spec h₀ h₁ hn
  have htake : (padded n v ++ rest).take n = padded n v := List.take_left' hlen
  have hdrop : (padded n v ++ rest).drop n = rest := List.drop_left' hlen
  rw [fixedDigits?, htake, hdrop, hlen]
  simp [List.all_eq_true.mpr hall, hv]


/-! ## Texts -/

theorem after?_cons (c : Char) (rest : List Char) : after? c (c :: rest) = some rest := by
  rw [after?, beq_self_eq_true, if_pos rfl]

theorem date?_padded {year month day : Int} (hy₀ : 1 ≤ year) (hy₁ : year ≤ 9999) (hm₀ : 1 ≤ month)
    (hm₁ : month ≤ 12) (hd₀ : 1 ≤ day) (hd₁ : day ≤ daysIn year month) (rest : List Char) :
    date? (padded 4 year ++ '-' :: (padded 2 month ++ '-' :: (padded 2 day ++ rest))) =
      some (daysTo year month day, rest) := by
  have hlong : daysIn year month ≤ 31 := by
    unfold daysIn
    split
    · split <;> omega
    · split <;> omega
  unfold date?
  rw [fixedDigits?_padded (by omega) (by omega) (by decide)]
  simp only [Option.bind_eq_bind, Option.bind_some, after?_cons]
  rw [fixedDigits?_padded (by omega) (by omega) (by decide)]
  simp only [Option.bind_some, after?_cons]
  rw [fixedDigits?_padded (by omega) (by omega) (by decide)]
  simp [hy₀, hm₀, hm₁, hd₀, hd₁]

/-- No digit and no point goes on after a time. -/
def Closes (cs : List Char) : Prop := cs = [] ∨ ∃ c rest, cs = c :: rest ∧ c ∈ ['Z', '+', '-']

theorem fraction?_micros {micro : Int} (h₀ : 0 ≤ micro) (h₁ : micro < 1000000) {rest : List Char}
    (hr : Closes rest) :
    fraction? ((if micro == 0 then [] else '.' :: padded 6 micro) ++ rest) = some (micro, rest) := by
  split
  · rename_i h
    obtain rfl : micro = 0 := by simpa using h
    rcases hr with rfl | ⟨c, rest, rfl, hc⟩
    · rfl
    · have hpoint : (c == '.' || c == ',') = false := by
        simp only [List.mem_cons, List.not_mem_nil, or_false] at hc
        rcases hc with rfl | rfl | rfl <;> rfl
      simp [fraction?, hpoint]
  · obtain ⟨hlen, hall, hv⟩ := padded_spec (n := 6) h₀ h₁ (by decide)
    have hspan : (padded 6 micro ++ rest).span Text.isAsciiDigit = (padded 6 micro, rest) := by
      refine Json.span_append hall fun c hc => ?_
      rcases hr with rfl | ⟨d, rest, rfl, hd⟩
      · cases hc
      · cases hc
        simp only [List.mem_cons, List.not_mem_nil, or_false] at hd
        rcases hd with rfl | rfl | rfl <;> rfl
    have hsix : (padded 6 micro ++ List.replicate 6 '0').take 6 = padded 6 micro :=
      List.take_left' hlen
    have hne : (padded 6 micro).isEmpty = false := by
      cases hp : padded 6 micro with
      | nil => rw [hp] at hlen; cases hlen
      | cons => rfl
    rw [List.cons_append, fraction?]
    simp only [beq_self_eq_true, Bool.true_or, if_true, hspan, hne, hsix, hv, Bool.false_eq_true,
      if_false]

theorem time?_padded {second micro : Int} (h₀ : 0 ≤ second) (h₁ : second < 86400) (hm₀ : 0 ≤ micro)
    (hm₁ : micro < 1000000) {rest : List Char} (hr : Closes rest) :
    time? (padded 2 (second / 3600) ++ ':' :: (padded 2 (second / 60 % 60) ++
        ':' :: (padded 2 (second % 60) ++
          ((if micro == 0 then [] else '.' :: padded 6 micro) ++ rest)))) =
      some (second * perSecond + micro, rest) := by
  unfold time?
  rw [fixedDigits?_padded (by omega) (by omega) (by decide)]
  simp only [Option.bind_eq_bind, Option.bind_some, after?_cons]
  rw [fixedDigits?_padded (by omega) (by omega) (by decide)]
  simp only [Option.bind_some]
  rw [fixedDigits?_padded (by omega) (by omega) (by decide)]
  simp only [fraction?_micros hm₀ hm₁ hr, Option.map_some, Option.bind_some]
  rw [if_pos (by simp; omega)]
  simp only [perSecond]
  congr 2
  omega

/-- The text of an offset, as a document has it. -/
def offsetPart : Option Int → List Char
  | none => []
  | some m => if m == 0 then ['Z'] else offsetText m

theorem closes_offsetPart (o : Option Int) : Closes (offsetPart o) := by
  cases o with
  | none => exact .inl rfl
  | some m =>
      refine .inr ?_
      simp only [offsetPart, offsetText]
      split
      · exact ⟨'Z', [], rfl, by decide⟩
      · refine ⟨_, _, rfl, ?_⟩
        split <;> decide

/-- An offset is read back from its sign and its size. -/
theorem offset?_sign {c : Char} (hc : c = '+' ∨ c = '-') {size : Int} (h₀ : 0 ≤ size)
    (h₁ : size < 1440) :
    offset? (c :: (padded 2 (size / 60) ++ ':' :: padded 2 (size % 60))) =
      some (some (if c == '-' then -size else size)) := by
  have hminutes := fixedDigits?_padded (n := 2) (v := size % 60) (by omega) (by omega) (by decide) []
  rw [List.append_nil] at hminutes
  have hread (rest : List Char) : offset? (c :: rest) =
      (fixedDigits? 2 rest).bind fun h => (fixedDigits? 2 ((after? ':' h.2).getD h.2)).bind fun m =>
        if m.2.isEmpty && h.1 ≤ 23 && m.1 ≤ 59 then
          some (some (if c == '-' then -(h.1 * 60 + m.1) else h.1 * 60 + m.1))
        else none := by
    rcases hc with rfl | rfl <;> rfl
  have htotal : size / 60 * 60 + size % 60 = size := by omega
  have hhours : size / 60 ≤ 23 := by omega
  have hrest : size % 60 ≤ 59 := by omega
  rw [hread, fixedDigits?_padded (by omega) (by omega) (by decide)]
  simp only [Option.bind_some, after?_cons, Option.getD_some, hminutes, htotal, hhours,
    hrest, List.isEmpty_nil, decide_true, Bool.and_self, if_true]

theorem offset?_offsetPart {o : Option Int} (h : ∀ m ∈ o, m.natAbs < 1440) :
    offset? (offsetPart o) = some o := by
  cases o with
  | none => rfl
  | some m =>
      have hm := h m rfl
      simp only [offsetPart, offsetText]
      split
      · rename_i h0
        rw [show m = 0 by simpa using h0]
        rfl
      · split
        · rw [offset?_sign (.inr rfl) (by omega) (by omega), if_pos (by rfl)]
          congr 2
          omega
        · rw [offset?_sign (.inl rfl) (by omega) (by omega), if_neg (by decide)]
          congr 2
          omega

/-- The days from the start of 1970 to the date that the clock shows. -/
def localDay (a : Stamp) : Int :=
  (a.micros + a.offset.getD 0 * 60 * perSecond).fdiv (86400 * perSecond)

/-- The clock shows a year of our era with at most four digits, and its offset is less than a day. -/
structure Dated (a : Stamp) : Prop where
  /-- The year is not before the first one. -/
  first : 1 ≤ (civil a.localDay).1
  /-- The year has four digits. -/
  last : (civil a.localDay).1 ≤ 9999
  /-- The offset is less than a day. -/
  offset : ∀ m ∈ a.offset, m.natAbs < 1440

/-- A stamp is read back from a document. -/
theorem parse?_document {a : Stamp} (h : a.Dated) : parse? a.document = some a := by
  obtain ⟨year, month, day, hcivil, hdays, hm₀, hm₁, hd₀, hd₁⟩ := daysTo_civil a.localDay
  obtain ⟨hfirst, hlast, hoffset⟩ := h
  rw [hcivil] at hfirst hlast
  obtain ⟨clock, hclock⟩ : ∃ clock, clock = a.micros + a.offset.getD 0 * 60 * perSecond := ⟨_, rfl⟩
  have hday : a.localDay = clock / 86400000000 := by
    rw [hclock, localDay]
    exact Int.fdiv_eq_ediv_of_nonneg _ (by decide)
  obtain ⟨rest, hrest⟩ : ∃ rest, rest = clock - a.localDay * (86400 * perSecond) := ⟨_, rfl⟩
  have hrest' : rest = clock % 86400000000 := by
    rw [hrest, hday, perSecond]
    omega
  have htext : a.document.toList = padded 4 year ++ '-' :: (padded 2 month ++ '-' :: (padded 2 day ++
      'T' :: (padded 2 (rest / perSecond / 3600) ++ ':' :: (padded 2 (rest / perSecond / 60 % 60) ++
        ':' :: (padded 2 (rest / perSecond % 60) ++
          ((if rest % perSecond == 0 then [] else '.' :: padded 6 (rest % perSecond)) ++
            offsetPart a.offset)))))) := by
    have hcivil : civil ((a.micros + a.offset.getD 0 * 60 * perSecond).fdiv (86400 * perSecond)) =
      (year, month, day) := hcivil
    rw [document, String.toList_ofList]
    simp only [wall, hcivil, List.append_assoc, List.cons_append]
    rw [hrest, hclock]
    rfl
  rw [parse?, htext, date?_padded hfirst hlast hm₀ hm₁ hd₀ hd₁]
  simp only [Option.bind_eq_bind, Option.bind_some]
  rw [if_pos (by rfl), time?_padded (by simp only [perSecond]; omega) (by simp only [perSecond]; omega)
    (by simp only [perSecond]; omega) (by simp only [perSecond]; omega) (closes_offsetPart _),
    Option.bind_some, offset?_offsetPart hoffset, Option.bind_some, hdays]
  have hmicros : a.localDay * 86400 * perSecond + (rest / perSecond * perSecond + rest % perSecond) -
      a.offset.getD 0 * 60 * perSecond = a.micros := by
    simp only [perSecond] at *
    omega
  rw [hmicros]

end IntentBuild.Stamp
