import IntentBuild.Proofs.Text.Trim
import IntentBuild.Proofs.Version.Order
import Mathlib.Data.List.TakeDrop

/-!
# The range from a version on

A caret before a readable range asks for at least its least version, unless a blank and then an operator
stand before the version: what the caret makes of that is unreadable (`leastOf?_caret_eq_iff`).  Either
way the range is not higher than the one that the caret makes of it (`isHigher_caret`).  A text that is a
version by itself has neither blanks nor an operator (`chars_of_parse?`), and the range has that version
as its least one (`leastOf?_of_parse?`).
-/

namespace IntentBuild.Version

open Text

variable {c : Char} {cs : List Char}

/-- The characters that operators begin with. -/
def operators : List Char := ['~', '^', '=', 'v', '<', '>']

theorem afterOperators_of_not_mem (h : ∀ c ∈ cs.head?, c ∉ operators) : afterOperators cs = cs := by
  cases cs with
  | nil => rfl
  | cons c cs =>
      have hc := h c rfl
      simp only [operators, List.mem_cons, List.not_mem_nil, or_false, not_or] at hc
      unfold afterOperators
      split
      · exact absurd (List.cons.inj ‹_›).1 hc.2.2.2.2.1
      · exact absurd (List.cons.inj ‹_›).1 hc.2.2.2.2.2
      · obtain ⟨rfl, rfl⟩ := List.cons.inj ‹_›
        simp [hc]
      · cases ‹_ = []›

/-- No blank begins an operator. -/
theorem not_mem_operators (h : isBlank c = true) : c ∉ operators := by
  intro hc
  simp only [operators, List.mem_cons, List.not_mem_nil, or_false] at hc
  rcases hc with rfl | rfl | rfl | rfl | rfl | rfl <;> revert h <;> decide

/-- A version begins with a digit. -/
theorem parse?_of_operator (h : c ∈ operators) : parse? (String.ofList (c :: cs)) = none := by
  have hdigit : isAsciiDigit c = false := by
    simp only [operators, List.mem_cons, List.not_mem_nil, or_false] at h
    rcases h with rfl | rfl | rfl | rfl | rfl | rfl <;> decide
  have hnumber : number? (c :: cs) = none := by
    simp [number?, List.span_eq_takeWhile_dropWhile, hdigit]
  rw [parse?, String.toList_ofList, hnumber]
  rfl

theorem rangeBody_caret (s : String) :
    rangeBody ("^" ++ s) = String.ofList (trimBothBy isBlank (afterOperators s.toList)) := by
  have htext : ("^" ++ s).toList = '^' :: s.toList := by
    rw [String.toList_append]
    rfl
  have hblank : isBlank '^' = false := by decide
  rw [rangeBody, trim, String.toList_ofList, htext, List.dropWhile_cons_of_neg (by simp [hblank])]
  rfl

/-- A blank and then an operator stand before the version. -/
def Detached (s : String) : Prop :=
  (∃ c ∈ s.toList.head?, isBlank c = true) ∧ ∃ c ∈ (s.toList.dropWhile isBlank).head?, c ∈ operators

/-- Where a blank stands first, the caret ends the row of operators. -/
theorem rangeBody_caret_of_blank {s : String} (h : ∃ c ∈ s.toList.head?, isBlank c = true) :
    rangeBody ("^" ++ s) = String.ofList (trimBothBy isBlank (s.toList.dropWhile isBlank)) := by
  have hblank : ∀ c ∈ s.toList.head?, c ∉ operators := by
    obtain ⟨d, hd, hblank⟩ := h
    intro c hc
    cases hd.symm.trans hc
    exact not_mem_operators hblank
  rw [rangeBody_caret, afterOperators_of_not_mem hblank, trimBothBy, trimBothBy,
    dropWhile_eq (head?_dropWhile s.toList)]

/-- A caret is not read over a blank before other operators. -/
theorem leastOf?_caret_of_detached {s : String} (h : Detached s) : leastOf? ("^" ++ s) = none := by
  obtain ⟨hblank, d, hd, hop⟩ := h
  rw [leastOf?, rangeBody_caret_of_blank hblank]
  have hink := head?_dropWhile (b := isBlank) s.toList
  generalize s.toList.dropWhile isBlank = ds at hd hink
  cases ds with
  | nil => cases hd
  | cons d ds =>
      cases hd
      have hrow : trimBothBy isBlank (d :: ds) = d :: (ds.reverse.dropWhile isBlank).reverse := by
        have h := trimBothBy_surrounded (p := []) (q := ds) (s := [d]) (b := isBlank)
          (by simpa using hink) (by simpa using hink) (by simp)
        simpa using h
      rw [hrow, parse?_of_operator hop]

/-- A caret leaves the least version of a range, wherever it is read with its operators. -/
theorem leastOf?_caret_of_not_detached {s : String} (h : ¬ Detached s) :
    leastOf? ("^" ++ s) = leastOf? s := by
  by_cases hblank : ∃ c ∈ s.toList.head?, isBlank c = true
  · have hops : ∀ c ∈ (s.toList.dropWhile isBlank).head?, c ∉ operators :=
      fun c hc hop => h ⟨hblank, c, hc, hop⟩
    rw [leastOf?, leastOf?, rangeBody_caret_of_blank hblank, rangeBody, trim, String.toList_ofList,
      afterOperators_of_not_mem hops]
  · have hlead : ∀ c ∈ s.toList.head?, isBlank c = false := fun c hc =>
      Bool.eq_false_iff.mpr fun hb => hblank ⟨c, hc, hb⟩
    rw [leastOf?, leastOf?, rangeBody_caret, rangeBody, trim, String.toList_ofList,
      dropWhile_eq hlead]

/-- A caret before a readable range leaves its least version, unless a blank and then an operator stand
before the version: then the range is unreadable. -/
theorem leastOf?_caret_eq_iff {s : String} (hs : isReadable s = true) :
    leastOf? ("^" ++ s) = leastOf? s ↔ ¬ Detached s := by
  refine ⟨fun h hd => ?_, leastOf?_caret_of_not_detached⟩
  rw [leastOf?_caret_of_detached hd] at h
  rw [isReadable, ← h] at hs
  cases hs

example : isReadable " ^1.0.0" = true ∧ leastOf? ("^" ++ " ^1.0.0") = none := by decide +kernel

/-- A caret before a range leaves its least version, or makes it unreadable. -/
theorem leastOf?_caret (s : String) :
    leastOf? ("^" ++ s) = leastOf? s ∨ leastOf? ("^" ++ s) = none := by
  by_cases h : Detached s
  · exact .inr (leastOf?_caret_of_detached h)
  · exact .inl (leastOf?_caret_of_not_detached h)

/-- No range is higher than the one that a caret makes of it. -/
theorem isHigher_caret (s : String) : isHigher s (some ("^" ++ s)) = false := by
  rw [Bool.eq_false_iff, ne_eq, isHigher_iff]
  rintro ⟨v, w, hv, hw, hvw⟩
  rcases leastOf?_caret s with h | h
  · have hself : isHigher s (some s) = true := isHigher_iff.mpr ⟨v, w, hv, h ▸ hw, hvw⟩
    exact absurd (isHigher_irrefl s) (by simp [hself])
  · exact absurd (h.symm.trans hw) nofun

/-! ## Texts of versions -/

/-- A character that the text of a version may have. -/
def isVersionChar (c : Char) : Bool := Identifier.isPart c || c == '.' || c == '+'

/-- The second row is left of the first one when some characters of versions are read. -/
def ReadOff (cs rest : List Char) : Prop := ∃ ds, cs = ds ++ rest ∧ ∀ d ∈ ds, isVersionChar d = true

theorem ReadOff.refl (cs : List Char) : ReadOff cs cs := ⟨[], rfl, nofun⟩

theorem ReadOff.trans {rest left : List Char} (h : ReadOff cs rest) (h' : ReadOff rest left) :
    ReadOff cs left := by
  obtain ⟨ds, rfl, hds⟩ := h
  obtain ⟨es, rfl, hes⟩ := h'
  exact ⟨ds ++ es, (List.append_assoc ..).symm, List.forall_mem_append.mpr ⟨hds, hes⟩⟩

theorem ReadOff.cons {rest : List Char} (hc : isVersionChar c = true) (h : ReadOff cs rest) :
    ReadOff (c :: cs) rest :=
  .trans ⟨[c], rfl, List.forall_mem_singleton.mpr hc⟩ h

theorem readOff_number? {n : Nat} {rest : List Char} (h : number? cs = some (n, rest)) :
    ReadOff cs rest ∧ ∃ c ∈ cs.head?, isAsciiDigit c = true := by
  rw [number?, List.span_eq_takeWhile_dropWhile] at h
  dsimp only at h
  split at h
  · cases h
  · rename_i hds
    cases h
    simp only [Bool.or_eq_true, List.isEmpty_iff, not_or] at hds
    have hdigits := List.all_takeWhile (p := isAsciiDigit) (l := cs)
    refine ⟨⟨_, List.takeWhile_append_dropWhile.symm, fun _ hd => ?_⟩, ?_⟩
    · rw [isVersionChar, Identifier.isPart, List.all_eq_true.mp hdigits _ hd]
      rfl
    · cases cs with
      | nil => exact absurd rfl hds.1
      | cons c cs =>
          refine ⟨c, rfl, Bool.of_not_eq_false fun hc => hds.1 ?_⟩
          rw [List.takeWhile_cons_of_neg (by simp [hc])]

theorem readOff_pointNumber? {n : Nat} {rest : List Char} (h : pointNumber? cs = some (n, rest)) :
    ReadOff cs rest := by
  unfold pointNumber? at h
  split at h
  · exact .cons (by decide) (readOff_number? h).1
  · cases h
    exact .refl _

/-- What a row of characters splits into has all of them but those where it splits. -/
theorem mem_splitChars {p : Char → Bool} (hc : c ∈ cs) :
    p c = true ∨ ∃ part ∈ splitChars p cs, c ∈ part := by
  induction cs with
  | nil => cases hc
  | cons d cs ih =>
      rw [splitChars]
      by_cases hd : p d = true
      · rw [if_pos hd]
        rcases List.mem_cons.mp hc with rfl | hc
        · exact .inl hd
        · exact (ih hc).imp_right fun ⟨part, hpart, hc⟩ => ⟨part, .tail _ hpart, hc⟩
      · rw [if_neg hd]
        cases hparts : splitChars p cs with
        | nil =>
            rw [hparts] at ih
            rcases List.mem_cons.mp hc with rfl | hc
            · exact .inr ⟨[c], by simp, by simp⟩
            · exact (ih hc).imp_right fun ⟨part, hpart, _⟩ => absurd hpart List.not_mem_nil
        | cons part parts =>
            rw [hparts] at ih
            rcases List.mem_cons.mp hc with rfl | hc
            · exact .inr ⟨c :: part, .head _, .head _⟩
            · refine (ih hc).imp_right fun ⟨q, hq, hcq⟩ => ?_
              rcases List.mem_cons.mp hq with rfl | hq
              · exact ⟨d :: q, .head _, .tail _ hcq⟩
              · exact ⟨q, .tail _ hq, hcq⟩

/-- Every part of a list that is read as a whole is read. -/
theorem exists_of_readAll? {α : Type} {read : List Char → Option α} {parts : List (List Char)}
    {as : List α} (h : readAll? read parts = some as) : ∀ part ∈ parts, ∃ a, read part = some a := by
  induction parts generalizing as with
  | nil => nofun
  | cons part parts ih =>
      rw [readAll?, List.mapM_cons, Option.bind_eq_bind, Option.bind_eq_some_iff] at h
      obtain ⟨a, ha, h⟩ := h
      rw [Option.bind_eq_bind, Option.bind_eq_some_iff] at h
      obtain ⟨as', has, -⟩ := h
      exact List.forall_mem_cons.mpr ⟨⟨a, ha⟩, ih has⟩

theorem readOff_identifiers? {α : Type} {mark : Char} {stop : Char → Bool}
    {read : List Char → Option α} {ids : List α} {rest : List Char} (hmark : isVersionChar mark = true)
    (hread : ∀ {part a}, read part = some a → ∀ c ∈ part, Identifier.isPart c = true)
    (h : identifiers? mark stop read cs = some (ids, rest)) : ReadOff cs rest := by
  unfold identifiers? at h
  split at h
  · rename_i d tail
    split at h
    · rename_i hd
      rw [List.span_eq_takeWhile_dropWhile] at h
      obtain ⟨ids', hall, he⟩ := Option.map_eq_some_iff.mp h
      cases he
      refine .cons (beq_iff_eq.mp hd ▸ hmark) ⟨_, List.takeWhile_append_dropWhile.symm, fun c hc => ?_⟩
      obtain hpoint | ⟨part, hpart, hc⟩ := mem_splitChars (p := (· == '.')) hc
      · rw [isVersionChar, hpoint, Bool.or_true, Bool.true_or]
      · obtain ⟨a, ha⟩ := exists_of_readAll? hall part hpart
        rw [isVersionChar, hread ha c hc]
        rfl
    · cases h
      exact .refl _
  · cases h
    exact .refl _

theorem isPart_of_ofChars? {part : List Char} {a : Identifier} (h : Identifier.ofChars? part = some a) :
    ∀ c ∈ part, Identifier.isPart c = true := by
  unfold Identifier.ofChars? at h
  split at h
  · cases h
  · rename_i hparts
    simp only [Bool.or_eq_true, Bool.not_eq_true', not_or, Bool.not_eq_false] at hparts
    exact List.all_eq_true.mp hparts.2

theorem isPart_of_buildIdentifier? {part : List Char} {a : String} (h : buildIdentifier? part = some a) :
    ∀ c ∈ part, Identifier.isPart c = true := by
  unfold buildIdentifier? at h
  split at h
  · cases h
  · rename_i hparts
    simp only [Bool.or_eq_true, Bool.not_eq_true', not_or, Bool.not_eq_false] at hparts
    exact List.all_eq_true.mp hparts.2

/-- The text of a version begins with a digit and has only characters of versions. -/
theorem chars_of_parse? {s : String} {v : Version} (h : parse? s = some v) :
    (∀ c ∈ s.toList, isVersionChar c = true) ∧ ∃ c ∈ s.toList.head?, isAsciiDigit c = true := by
  have rest {a b d : Nat} {cs : List Char}
      (h : ((identifiers? '-' (· == '+') Identifier.ofChars? cs).bind fun pre =>
        (identifiers? '+' (fun _ => false) buildIdentifier? pre.2).bind fun build =>
          if build.2.isEmpty then some (⟨a, b, d, pre.1, build.1⟩ : Version) else none) = some v) :
      ReadOff cs [] := by
    obtain ⟨pre, hpre, h⟩ := Option.bind_eq_some_iff.mp h
    obtain ⟨build, hbuild, h⟩ := Option.bind_eq_some_iff.mp h
    split at h
    · rename_i hend
      exact (readOff_identifiers? (by decide) isPart_of_ofChars? hpre).trans
        (List.isEmpty_iff.mp hend ▸
          readOff_identifiers? (by decide) isPart_of_buildIdentifier? hbuild)
    · cases h
  suffices hread : ReadOff s.toList [] ∧ ∃ c ∈ s.toList.head?, isAsciiDigit c = true by
    obtain ⟨⟨ds, hds, hall⟩, hfirst⟩ := hread
    rw [List.append_nil] at hds
    exact ⟨hds ▸ hall, hfirst⟩
  simp only [parse?, Option.bind_eq_bind, Option.bind_eq_some_iff] at h
  obtain ⟨major, hmajor, minor, hminor, h⟩ := h
  obtain ⟨hoff, hfirst⟩ := readOff_number? hmajor
  have hoff := hoff.trans (readOff_pointNumber? hminor)
  refine ⟨?_, hfirst⟩
  split at h
  · obtain ⟨patch, hpatch, h⟩ := Option.bind_eq_some_iff.mp h
    exact (hoff.trans (readOff_pointNumber? hpatch)).trans (rest h)
  · exact hoff.trans (rest h)

/-- No character of a version is blank. -/
theorem not_isBlank_of_isVersionChar (h : isVersionChar c = true) : isBlank c = false := by
  have hbounds : 0x20 < c.toNat ∧ c.toNat < 0x80 := by
    simp only [isVersionChar, Identifier.isPart, isAsciiDigit, Bool.or_eq_true, Bool.and_eq_true,
      decide_eq_true_eq, beq_iff_eq, Char.le_def, UInt32.le_iff_toNat_le] at h
    rcases h with ((((⟨h, h'⟩ | ⟨h, h'⟩) | ⟨h, h'⟩) | rfl) | rfl) | rfl
    · exact ⟨Nat.lt_of_lt_of_le (by decide) h, Nat.lt_of_le_of_lt h' (by decide)⟩
    · exact ⟨Nat.lt_of_lt_of_le (by decide) h, Nat.lt_of_le_of_lt h' (by decide)⟩
    · exact ⟨Nat.lt_of_lt_of_le (by decide) h, Nat.lt_of_le_of_lt h' (by decide)⟩
    all_goals decide
  rw [Bool.eq_false_iff]
  simp only [isBlank, isSpace, ne_eq, Bool.or_eq_true, Bool.and_eq_true, decide_eq_true_eq, beq_iff_eq]
  omega

/-- The text of a version is a range from this version on. -/
theorem leastOf?_of_parse? {s : String} {v : Version} (h : parse? s = some v) : leastOf? s = some v := by
  obtain ⟨hall, c, hc, hdigit⟩ := chars_of_parse? h
  have hink (d : Char) (hd : d ∈ s.toList) : isBlank d = false := not_isBlank_of_isVersionChar (hall d hd)
  have hops : ∀ d ∈ s.toList.head?, d ∉ operators := by
    intro d hd
    cases hc.symm.trans hd
    simp only [operators, List.mem_cons, List.not_mem_nil, or_false]
    rintro (rfl | rfl | rfl | rfl | rfl | rfl) <;> revert hdigit <;> decide
  have htrim : trim s = s := by
    have hrow := trimBothBy_surrounded (p := []) (q := []) (s := s.toList) (b := isBlank)
      (fun d hd => hink d (List.mem_of_mem_head? hd)) (fun d hd => hink d (List.mem_of_mem_getLast? hd))
      (List.ne_nil_of_mem (List.mem_of_mem_head? hc))
    rw [trim, show trimBothBy isBlank s.toList = s.toList by simpa using hrow, String.ofList_toList]
  rw [leastOf?, rangeBody, dropWhile_eq fun d hd => hink d (List.mem_of_mem_head? hd),
    afterOperators_of_not_mem hops, String.ofList_toList, htrim, h]

/-- Nothing stands before the text of a version. -/
theorem not_detached_of_parse? {s : String} {v : Version} (h : parse? s = some v) : ¬ Detached s := by
  rintro ⟨⟨c, hc, hblank⟩, -⟩
  have hchar := (chars_of_parse? h).1 c (List.mem_of_mem_head? hc)
  rw [not_isBlank_of_isVersionChar hchar] at hblank
  cases hblank

end IntentBuild.Version
