import IntentBuild.Proofs.Assoc
import IntentBuild.Proofs.Json.Numbers
import IntentBuild.Proofs.Json.Tidy
import IntentBuild.Proofs.Text.Hex
import IntentBuild.Proofs.Text.LineBreaks
import Mathlib.Data.List.TakeDrop

/-!
# Written JSON is read back

A value whose finite numbers are in their normal form, and whose objects have one entry for each key, is
read back as it was written, in every layout (`parse?_render`).  The text has no carriage return, so a
file keeps it as it is (`unifyLineBreaks_render`).  So what was once read is a value that its texts
preserve.

The reader takes as much fuel as the text is long.
-/

namespace IntentBuild.Json

open Assoc (keys Proper)

/-! ## Plain values -/

mutual

/-- A value without floating point numbers, with one entry for each key of an object. -/
def Plain : Json → Prop
  | .float _ => False
  | .arr vs => PlainItems vs
  | .obj ms => Proper ms ∧ PlainMembers ms
  | _ => True

/-- All items are plain. -/
def PlainItems : List Json → Prop
  | [] => True
  | v :: vs => Plain v ∧ PlainItems vs

/-- All members are plain. -/
def PlainMembers : Members → Prop
  | [] => True
  | (_, v) :: ms => Plain v ∧ PlainMembers ms

end

/-! ## Lossless values -/

mutual

/-- A value that its text preserves and that has only finite numbers: they are in their normal form, and
its objects have one entry for each key. -/
def Lossless : Json → Prop
  | .float x => x.Normal
  | .arr vs => LosslessItems vs
  | .obj ms => Proper ms ∧ LosslessMembers ms
  | _ => True

/-- All items are lossless. -/
def LosslessItems : List Json → Prop
  | [] => True
  | v :: vs => Lossless v ∧ LosslessItems vs

/-- All members are lossless. -/
def LosslessMembers : Members → Prop
  | [] => True
  | (_, v) :: ms => Lossless v ∧ LosslessMembers ms

end

mutual

theorem Plain.lossless : ∀ {v : Json}, v.Plain → v.Lossless
  | .null, _ | .bool _, _ | .int _, _ | .str _, _ => trivial
  | .float _, h => h.elim
  | .arr _, h => losslessItems_of_plain h
  | .obj _, h => ⟨h.1, losslessMembers_of_plain h.2⟩

theorem losslessItems_of_plain : ∀ {vs : List Json}, PlainItems vs → LosslessItems vs
  | [], _ => trivial
  | _ :: _, h => ⟨h.1.lossless, losslessItems_of_plain h.2⟩

theorem losslessMembers_of_plain : ∀ {ms : Members}, PlainMembers ms → LosslessMembers ms
  | [], _ => trivial
  | (_, _) :: _, h => ⟨h.1.lossless, losslessMembers_of_plain h.2⟩

end

mutual

theorem Lossless.tidy : ∀ {v : Json}, v.Lossless → v.Tidy
  | .null, _ | .bool _, _ | .int _, _ | .str _, _ => trivial
  | .float _, h => Binary64.Normal.tidy h
  | .arr _, h => tidyItems_of_lossless h
  | .obj _, h => ⟨h.1, tidyMembers_of_lossless h.2⟩

theorem tidyItems_of_lossless : ∀ {vs : List Json}, LosslessItems vs → TidyItems vs
  | [], _ => trivial
  | _ :: _, h => ⟨h.1.tidy, tidyItems_of_lossless h.2⟩

theorem tidyMembers_of_lossless : ∀ {ms : Members}, LosslessMembers ms → TidyMembers ms
  | [], _ => trivial
  | (_, _) :: _, h => ⟨h.1.tidy, tidyMembers_of_lossless h.2⟩

end

theorem plain_ofTexts {m : List (String × String)} (h : Proper m) : (ofTexts m).Plain := by
  refine ⟨by simpa [Proper, keys, Function.comp_def] using h, ?_⟩
  clear h
  induction m with
  | nil => trivial
  | cons e m ih => exact ⟨trivial, ih⟩

theorem lossless_ofTexts {m : List (String × String)} (h : Proper m) : (ofTexts m).Lossless :=
  (plain_ofTexts h).lossless

/-! ## Strings -/

/-- The character of a UTF-16 unit that is no surrogate is read back. -/
theorem stringBody?_unitEscape {n : Nat} (hn : n < 0x10000)
    (hh : Text.isHighSurrogate n = false) (hl : Text.isLowSurrogate n = false) (rest : List Char) :
    stringBody? (unitEscape n ++ rest) =
      (stringBody? rest).map fun r => (Char.ofNat n :: r.1, r.2) := by
  obtain ⟨a, b, c, d, hd, hq⟩ := Text.hexQuad?_hexDigits hn
  rw [unitEscape, hd]
  simp only [List.cons_append, List.nil_append]
  rw [stringBody?, hq]
  simp [hh, hl]

/-- A pair of surrogates is read back as its character. -/
theorem stringBody?_surrogates {m n : Nat} (hm : Text.isHighSurrogate m = true)
    (hn : Text.isLowSurrogate n = true) (rest : List Char) :
    stringBody? (unitEscape m ++ (unitEscape n ++ rest)) =
      (stringBody? rest).map fun r => (Text.ofSurrogates m n :: r.1, r.2) := by
  have hm' : m < 0x10000 := by simp [Text.isHighSurrogate] at hm; omega
  have hn' : n < 0x10000 := by simp [Text.isLowSurrogate] at hn; omega
  obtain ⟨a, b, c, d, hd, hq⟩ := Text.hexQuad?_hexDigits hm'
  obtain ⟨a', b', c', d', hd', hq'⟩ := Text.hexQuad?_hexDigits hn'
  rw [unitEscape, unitEscape, hd, hd']
  simp only [List.cons_append, List.nil_append]
  rw [stringBody?, hq]
  simp [hm, hq', hn]

/-- A character is read back from its UTF-16 units. -/
theorem stringBody?_utf16 (c : Char) (rest : List Char) :
    stringBody? ((Text.utf16Units c).flatMap unitEscape ++ rest) =
      (stringBody? rest).map fun r => (c :: r.1, r.2) := by
  have hvalid : c.toNat < 0xD800 ∨ 0xDFFF < c.toNat ∧ c.toNat < 0x110000 := c.valid
  unfold Text.utf16Units
  dsimp only
  split
  · rename_i hc
    have hh : Text.isHighSurrogate c.toNat = false := by
      simp [Text.isHighSurrogate]; omega
    have hl : Text.isLowSurrogate c.toNat = false := by
      simp [Text.isLowSurrogate]; omega
    rw [List.flatMap_cons, List.flatMap_nil, List.append_nil,
      stringBody?_unitEscape hc hh hl, Char.ofNat_toNat]
  · rename_i hc
    have hm : Text.isHighSurrogate (0xD800 + (c.toNat - 0x10000) / 0x400) = true := by
      simp [Text.isHighSurrogate]; omega
    have hn : Text.isLowSurrogate (0xDC00 + (c.toNat - 0x10000) % 0x400) = true := by
      simp [Text.isLowSurrogate]; omega
    have hc' : Text.ofSurrogates (0xD800 + (c.toNat - 0x10000) / 0x400)
        (0xDC00 + (c.toNat - 0x10000) % 0x400) = c := by
      rw [Text.ofSurrogates, show 0x10000 + (0xD800 + (c.toNat - 0x10000) / 0x400 - 0xD800) * 0x400 +
        (0xDC00 + (c.toNat - 0x10000) % 0x400 - 0xDC00) = c.toNat by omega, Char.ofNat_toNat]
    rw [List.flatMap_cons, List.flatMap_cons, List.flatMap_nil, List.append_nil, List.append_assoc,
      stringBody?_surrogates hm hn, hc']

/-- A character is read back as it stands in a string. -/
theorem stringBody?_stringChar (ascii : Bool) (c : Char) (rest : List Char) :
    stringBody? (stringChar ascii c ++ rest) =
      (stringBody? rest).map fun r => (c :: r.1, r.2) := by
  have short {e : Char} (he : escape? e = some c) (hu : e ≠ 'u') :
      stringBody? (['\\', e] ++ rest) = (stringBody? rest).map fun r => (c :: r.1, r.2) := by
    rw [List.cons_append, List.cons_append, List.nil_append, stringBody?, he]
    rintro _ _ _ _ _ h
    exact absurd h hu
  unfold stringChar
  -- The seven characters with a letter of their own.
  iterate 7 (split; · rename_i h; exact short (by rw [beq_iff_eq.mp h]; rfl) (by decide))
  rename_i hq hb _ _ _ _ _
  split
  · rename_i hc
    have hh : Text.isHighSurrogate c.toNat = false := by simp [Text.isHighSurrogate]; omega
    have hl : Text.isLowSurrogate c.toNat = false := by simp [Text.isLowSurrogate]; omega
    rw [stringBody?_unitEscape (by omega) hh hl, Char.ofNat_toNat]
  · rename_i hc
    split
    · exact stringBody?_utf16 c rest
    · simp only [List.cons_append, List.nil_append]
      rw [stringBody?, if_neg hc]
      · exact fun h => hq (by rw [h]; rfl)
      · rintro _ _ _ _ _ h _
        exact hb (by rw [h]; rfl)
      · rintro _ _ h _
        exact hb (by rw [h]; rfl)

theorem stringBody?_flatMap (ascii : Bool) (cs rest : List Char) :
    stringBody? (cs.flatMap (stringChar ascii) ++ '"' :: rest) = some (cs, rest) := by
  induction cs with
  | nil => rfl
  | cons c cs ih =>
      rw [List.flatMap_cons, List.append_assoc, stringBody?_stringChar, ih]
      rfl

/-! ## Blanks -/

/-- The row consists of blanks. -/
def Blanks (cs : List Char) : Prop := ∀ c ∈ cs, c = ' ' ∨ c = '\n'

theorem blanks_lineBreak (layout : Layout) (level : Nat) : Blanks (lineBreak layout level) := by
  intro c hc
  unfold lineBreak at hc
  split at hc
  · rcases List.mem_cons.mp hc with rfl | hc
    · exact .inr rfl
    · exact .inl (List.eq_of_mem_replicate hc)
  · cases hc

/-- A separator is a comma with blanks after it. -/
theorem separator_eq (layout : Layout) (level : Nat) :
    ∃ sp, separator layout level = ',' :: sp ∧ Blanks sp := by
  unfold separator
  split
  · exact ⟨_, rfl, blanks_lineBreak layout level⟩
  · exact ⟨_, rfl, fun c hc => .inl (List.mem_singleton.mp hc)⟩

theorem skipSpace_blanks {sp : List Char} (h : Blanks sp) (cs : List Char) :
    skipSpace (sp ++ cs) = skipSpace cs := by
  refine List.dropWhile_append_of_pos fun c hc => ?_
  rcases h c hc with rfl | rfl <;> rfl

theorem skipSpace_cons {c : Char} (h : c ∉ [' ', '\n', '\t', '\r']) (cs : List Char) :
    skipSpace (c :: cs) = c :: cs := by
  refine List.dropWhile_cons_of_neg ?_
  simp only [List.mem_cons, List.not_mem_nil, or_false, not_or] at h
  simp [h]

theorem readValue?_blanks {sp : List Char} (h : Blanks sp) (fuel : Nat) (cs : List Char) :
    readValue? fuel (sp ++ cs) = readValue? fuel cs := by
  cases fuel with
  | zero => rfl
  | succ fuel => rw [readValue?, skipSpace_blanks h, readValue?]

theorem readItems?_blanks {sp : List Char} (h : Blanks sp) (fuel : Nat) (cs : List Char) :
    readItems? fuel (sp ++ cs) = readItems? fuel cs := by
  cases fuel with
  | zero => rfl
  | succ fuel => rw [readItems?, readValue?_blanks h, readItems?]

theorem ends_blanks {sp : List Char} (h : Blanks sp) {c : Char} (hc : c ∈ [',', ']', '}'])
    (cs : List Char) : Ends (sp ++ c :: cs) := by
  cases sp with
  | nil =>
      exact ends_cons (List.mem_append_left [' ', '\n'] hc) cs
  | cons d sp =>
      refine ends_cons ?_ _
      rcases h d (.head _) with rfl | rfl <;> decide

/-! ## Values -/

/-- The text of the items of a list. -/
def writeRow (layout : Layout) (level : Nat) : List Json → List Char
  | [] => []
  | v :: vs => write layout level v ++ writeItems layout level vs

/-- The text of the members of an object. -/
def writeFields (layout : Layout) (level : Nat) : Members → List Char
  | [] => []
  | (k, v) :: ms => stringText layout.ascii k ++ (':' :: ' ' ::
      (write layout level v ++ writeMembers layout level ms))

theorem writeItems_cons (layout : Layout) (level : Nat) (v : Json) (vs : List Json) :
    writeItems layout level (v :: vs) = separator layout level ++ writeRow layout level (v :: vs) :=
  rfl

theorem writeMembers_cons (layout : Layout) (level : Nat) (e : String × Json) (ms : Members) :
    writeMembers layout level (e :: ms) =
      separator layout level ++ writeFields layout level (e :: ms) :=
  rfl

/-- A word that is no list, no object and no string. -/
theorem readValue?_word {fuel : Nat} {c : Char} {cs : List Char}
    (hc : c ∉ [' ', '\n', '\t', '\r', '{', '[', '"']) :
    readValue? (fuel + 1) (c :: cs) = readWord? (c :: cs) := by
  simp only [List.mem_cons, List.not_mem_nil, or_false, not_or] at hc
  obtain ⟨h1, h2, h3, h4, h5, h6, h7⟩ := hc
  rw [readValue?, skipSpace_cons (by simp [h1, h2, h3, h4])]
  split
  · rename_i h; exact absurd (List.cons.inj h).1 h5
  · rename_i h; exact absurd (List.cons.inj h).1 h6
  · rename_i h; exact absurd (List.cons.inj h).1 h7
  · rfl

/-- Neither a minus sign nor a digit is a blank, or begins or ends a value of another kind. -/
theorem not_mem_of_digit {c : Char} (h : c = '-' ∨ Text.isAsciiDigit c = true) :
    c ∉ [' ', '\n', '\t', '\r', ']', '}', '{', '[', '"'] := fun hm => by
  simp only [List.mem_cons, List.not_mem_nil, or_false] at hm
  rcases h with rfl | h
  · revert hm
    decide
  · rcases hm with rfl | rfl | rfl | rfl | rfl | rfl | rfl | rfl | rfl <;> cases h

/-- A text that begins with a minus sign or a digit is read as a word. -/
theorem readValue?_of_digit {fuel : Nat} {c : Char} {cs : List Char}
    (h : c = '-' ∨ Text.isAsciiDigit c = true) :
    readValue? (fuel + 1) (c :: cs) = readWord? (c :: cs) := by
  refine readValue?_word fun hm => not_mem_of_digit h ?_
  simp only [List.mem_cons, List.not_mem_nil, or_false] at hm ⊢
  tauto

theorem readValue?_ofInt (i : Int) (fuel : Nat) {rest : List Char} (hr : Ends rest) :
    readValue? (fuel + 1) ((Text.ofInt i).toList ++ rest) = some (.int i, rest) := by
  obtain ⟨c, cs, htext, hc⟩ := ofInt_eq_cons i
  rw [← readWord?_ofInt i hr, htext, List.cons_append]
  exact readValue?_of_digit hc

theorem readValue?_floatText {x : Binary64} (hx : x.Tidy) (fuel : Nat) {rest : List Char}
    (hr : Ends rest) : readValue? (fuel + 1) (floatText x ++ rest) = some (.float x, rest) := by
  obtain ⟨c, cs, htext, hc⟩ := floatText_eq_cons hx
  rw [← readWord?_floatText hx hr, htext, List.cons_append]
  rcases hc with rfl | rfl | hc
  · exact readValue?_word (by decide)
  · exact readValue?_word (by decide)
  · exact readValue?_of_digit hc

theorem readValue?_stringText (ascii : Bool) (s : String) (fuel : Nat) (rest : List Char) :
    readValue? (fuel + 1) (stringText ascii s ++ rest) = some (.str s, rest) := by
  rw [stringText, List.cons_append, List.append_assoc, readValue?, skipSpace_cons (by decide)]
  simp only [List.cons_append, List.nil_append, stringBody?_flatMap, Option.map_some,
    String.ofList_toList]

/-- The text of a value begins with a character that is no blank and closes nothing. -/
theorem write_eq_cons (layout : Layout) (level : Nat) {v : Json} (hv : v.Tidy) :
    ∃ c cs, write layout level v = c :: cs ∧ c ∉ [' ', '\n', '\t', '\r', ']', '}'] := by
  cases v with
  | null => exact ⟨_, _, rfl, by decide⟩
  | bool b => cases b <;> exact ⟨_, _, rfl, by decide⟩
  | int i =>
      obtain ⟨c, cs, hc, hdigit⟩ := ofInt_eq_cons i
      exact ⟨c, cs, hc, fun hm => not_mem_of_digit hdigit (List.mem_append_left ['{', '[', '"'] hm)⟩
  | float x =>
      obtain ⟨c, cs, hc, rfl | rfl | hdigit⟩ := floatText_eq_cons hv
      · exact ⟨_, cs, hc, by decide⟩
      · exact ⟨_, cs, hc, by decide⟩
      · exact ⟨c, cs, hc, fun hm => not_mem_of_digit hdigit (List.mem_append_left ['{', '[', '"'] hm)⟩
  | str s => exact ⟨_, _, rfl, by decide⟩
  | arr vs => cases vs <;> exact ⟨_, _, rfl, by decide⟩
  | obj ms => cases ms <;> exact ⟨_, _, rfl, by decide⟩

mutual

/-- A value is read back as it was written. -/
theorem readValue?_write (layout : Layout) : ∀ {v : Json}, v.Tidy → ∀ (level fuel : Nat)
    {rest : List Char}, Ends rest → (write layout level v).length < fuel →
      readValue? fuel (write layout level v ++ rest) = some (v, rest)
  | .null, _, level, fuel + 1, rest, _, _ => by
      exact readValue?_word (by decide)
  | .bool b, _, level, fuel + 1, rest, _, _ => by
      cases b
      · exact readValue?_word (by decide)
      · exact readValue?_word (by decide)
  | .int i, _, level, fuel + 1, rest, hr, _ => readValue?_ofInt i fuel hr
  | .float x, hv, level, fuel + 1, rest, hr, _ => readValue?_floatText hv fuel hr
  | .str s, _, level, fuel + 1, rest, _, _ => readValue?_stringText layout.ascii s fuel rest
  | .arr [], _, level, fuel + 1, rest, _, _ => by
      rw [write, readValue?]
      rfl
  | .arr (v :: vs), hv, level, fuel + 1, rest, _, hf => by
      have hlb := blanks_lineBreak layout (level + 1)
      have htext : write layout level (.arr (v :: vs)) = '[' :: (lineBreak layout (level + 1) ++
          (writeRow layout (level + 1) (v :: vs) ++ (lineBreak layout level ++ [']']))) := by
        rw [write, writeRow, List.append_assoc]
      rw [htext] at hf ⊢
      simp only [List.length_cons, List.length_append, List.length_nil] at hf
      have hitems := readItems?_write layout (show TidyItems (v :: vs) from hv) nofun (level + 1)
        fuel (blanks_lineBreak layout level) rest (by omega)
      obtain ⟨c, cs, hc, hn⟩ := write_eq_cons layout (level + 1) hv.1
      simp only [List.mem_cons, List.not_mem_nil, or_false, not_or] at hn
      have hstart : skipSpace (lineBreak layout (level + 1) ++ (writeRow layout (level + 1)
          (v :: vs) ++ (lineBreak layout level ++ ']' :: rest))) =
          writeRow layout (level + 1) (v :: vs) ++ (lineBreak layout level ++ ']' :: rest) := by
        rw [skipSpace_blanks hlb, writeRow, hc]
        exact skipSpace_cons (by simp [hn]) _
      simp only [List.cons_append, List.append_assoc, List.nil_append]
      rw [readValue?, skipSpace_cons (by decide)]
      simp only [hstart]
      split
      · rename_i h
        rw [writeRow, hc] at h
        exact absurd (List.cons.inj h).1 hn.2.2.2.2.1
      · rw [hitems]
        rfl
  | .obj [], _, level, fuel + 1, rest, _, _ => by
      rw [write, readValue?]
      rfl
  | .obj ((k, v) :: ms), hv, level, fuel + 1, rest, _, hf => by
      have hlb := blanks_lineBreak layout (level + 1)
      have htext : write layout level (.obj ((k, v) :: ms)) = '{' :: (lineBreak layout (level + 1) ++
          (writeFields layout (level + 1) ((k, v) :: ms) ++ (lineBreak layout level ++ ['}']))) := by
        simp only [write, writeFields, List.append_assoc, List.cons_append]
      rw [htext] at hf ⊢
      simp only [List.length_cons, List.length_append, List.length_nil] at hf
      have hfields := readMembers?_write layout (show TidyMembers ((k, v) :: ms) from hv.2) nofun
        (level + 1) fuel (blanks_lineBreak layout level) rest (by omega)
      have hstart : skipSpace (lineBreak layout (level + 1) ++ (writeFields layout (level + 1)
          ((k, v) :: ms) ++ (lineBreak layout level ++ '}' :: rest))) =
          writeFields layout (level + 1) ((k, v) :: ms) ++
            (lineBreak layout level ++ '}' :: rest) := by
        rw [skipSpace_blanks hlb]
        exact skipSpace_cons (by decide) _
      simp only [List.cons_append, List.append_assoc, List.nil_append]
      rw [readValue?, skipSpace_cons (by decide)]
      simp only [hstart]
      split
      · rename_i h
        cases (List.cons.inj h).1
      · rw [hfields, Option.map_some, Assoc.ofEntries_of_proper hv.1]

/-- Items are read back as they were written. -/
theorem readItems?_write (layout : Layout) : ∀ {vs : List Json}, TidyItems vs → vs ≠ [] →
    ∀ (level fuel : Nat) {sp : List Char}, Blanks sp → ∀ rest : List Char,
      (writeRow layout level vs).length + 1 < fuel →
        readItems? fuel (writeRow layout level vs ++ (sp ++ ']' :: rest)) = some (vs, rest)
  | v :: vs, hv, _, level, fuel + 1, sp, hsp, rest, hf => by
      rw [writeRow, List.length_append] at hf
      have close : skipSpace (sp ++ ']' :: rest) = ']' :: rest := by
        rw [skipSpace_blanks hsp]
        rfl
      rw [readItems?, writeRow, List.append_assoc]
      cases vs with
      | nil =>
          rw [writeItems, List.nil_append, readValue?_write layout hv.1 level
            fuel (ends_blanks hsp (by decide) rest) (by omega)]
          simp only [close]
      | cons w vs =>
          obtain ⟨sp', hsep, hsp'⟩ := separator_eq layout level
          rw [writeItems_cons, hsep, List.length_append, List.length_cons] at hf
          have hmore := readItems?_write layout (show TidyItems (w :: vs) from hv.2) nofun level
            fuel hsp rest (by omega)
          rw [writeItems_cons, hsep, List.cons_append, List.cons_append, List.append_assoc,
            readValue?_write layout hv.1 level fuel (ends_cons (by decide) _) (by omega)]
          dsimp only
          rw [skipSpace_cons (by decide)]
          simp only [readItems?_blanks hsp', hmore]
          rfl

/-- Members are read back as they were written. -/
theorem readMembers?_write (layout : Layout) : ∀ {ms : Members}, TidyMembers ms → ms ≠ [] →
    ∀ (level fuel : Nat) {sp : List Char}, Blanks sp → ∀ rest : List Char,
      (writeFields layout level ms).length + 1 < fuel →
        readMembers? fuel (writeFields layout level ms ++ (sp ++ '}' :: rest)) = some (ms, rest)
  | (k, v) :: ms, hv, _, level, fuel + 1, sp, hsp, rest, hf => by
      simp only [writeFields, List.length_append, List.length_cons] at hf
      have close : skipSpace (sp ++ '}' :: rest) = '}' :: rest := by
        rw [skipSpace_blanks hsp]
        rfl
      have hblank : Blanks [' '] := fun c hc => .inl (List.mem_singleton.mp hc)
      have value {more : List Char} (h : Ends more) :
          readValue? fuel (' ' :: (write layout level v ++ more)) = some (v, more) := by
        refine (readValue?_blanks hblank fuel _).trans (readValue?_write layout hv.1 level fuel h ?_)
        omega
      simp only [writeFields, stringText, List.cons_append, List.append_assoc, List.nil_append]
      rw [readMembers?, stringBody?_flatMap]
      dsimp only
      rw [skipSpace_cons (by decide)]
      cases ms with
      | nil =>
          simp only [writeMembers, List.nil_append,
            value (ends_blanks hsp (c := '}') (by decide) rest), close, String.ofList_toList]
      | cons e ms =>
          obtain ⟨sp', hsep, hsp'⟩ := separator_eq layout level
          rw [writeMembers_cons, hsep, List.length_append, List.length_cons] at hf
          have hmore := readMembers?_write layout (show TidyMembers (e :: ms) from hv.2) nofun level
            fuel hsp rest (by omega)
          have comma (cs : List Char) : skipSpace (',' :: cs) = ',' :: cs :=
            skipSpace_cons (by decide) cs
          have hstart : skipSpace (sp' ++ (writeFields layout level (e :: ms) ++
              (sp ++ '}' :: rest))) = writeFields layout level (e :: ms) ++ (sp ++ '}' :: rest) :=
            (skipSpace_blanks hsp' _).trans (skipSpace_cons (by decide) _)
          simp only [writeMembers_cons, hsep, List.cons_append, List.append_assoc,
            value (ends_cons (c := ',') (by decide) _), comma, hstart, hmore, String.ofList_toList]
          rfl

end

/-- A value is read back from its text, and from its text as a file. -/
theorem parseChars?_write (layout : Layout) {v : Json} (hv : v.Tidy) {sp : List Char}
    (hsp : Blanks sp) : parseChars? (write layout 0 v ++ sp) = some v := by
  have hends : Ends sp := by
    cases sp with
    | nil => exact ends_nil
    | cons c sp =>
        refine ends_cons ?_ sp
        rcases hsp c (.head _) with rfl | rfl <;> decide
  have hread := readValue?_write layout hv 0 ((write layout 0 v ++ sp).length + 1) hends
    (by rw [List.length_append]; omega)
  have hspace : skipSpace sp = [] := by
    have := skipSpace_blanks hsp []
    rwa [List.append_nil] at this
  rw [parseChars?, hread]
  simp only [hspace, List.isEmpty_nil, if_true]

/-! ## Carriage returns -/

theorem return_not_mem_hexDigits (width n : Nat) : '\r' ∉ Text.hexDigits width n := by
  induction width generalizing n with
  | zero => exact nofun
  | succ width ih =>
      rw [Text.hexDigits, List.mem_append, List.mem_singleton, not_or]
      refine ⟨ih _, ?_⟩
      have hdigit : ∀ m, m < 16 → '\r' ≠ Text.hexDigit m := by decide
      exact hdigit _ (Nat.mod_lt _ (by decide))

theorem return_not_mem_unitEscape (n : Nat) : '\r' ∉ unitEscape n := by
  simp [unitEscape, return_not_mem_hexDigits]

theorem return_not_mem_stringText (ascii : Bool) (s : String) : '\r' ∉ stringText ascii s := by
  have char (c : Char) : '\r' ∉ stringChar ascii c := by
    unfold stringChar
    iterate 3 (split; · decide)
    split
    · decide
    rename_i hr
    iterate 3 (split; · decide)
    split
    · exact return_not_mem_unitEscape _
    split
    · intro h
      obtain ⟨n, -, h⟩ := List.mem_flatMap.mp h
      exact return_not_mem_unitEscape n h
    · intro h
      exact hr (by rw [← List.mem_singleton.mp h]; rfl)
  intro h
  simp only [stringText, List.mem_cons, List.mem_append, List.mem_flatMap, List.not_mem_nil,
    or_false] at h
  rcases h with h | ⟨c, -, h⟩ | h
  · cases h
  · exact char c h
  · cases h

theorem return_not_mem_toDigits (n : Nat) : '\r' ∉ Nat.toDigits 10 n := fun h =>
  absurd (Nat.isDigit_of_mem_toDigits (by decide) (by decide) h) (by decide)

theorem return_not_mem_ofInt (i : Int) : '\r' ∉ (Text.ofInt i).toList := by
  cases i with
  | ofNat n => rw [Text.ofInt, Nat.toList_repr]; exact return_not_mem_toDigits n
  | negSucc n =>
      rw [Text.ofInt, String.toList_append, Nat.toList_repr, List.mem_append, not_or]
      exact ⟨by decide, return_not_mem_toDigits _⟩

theorem return_not_mem_positional {ds : List Char} (h : '\r' ∉ ds) (first : Int) :
    '\r' ∉ FloatStyle.plain.positional ds first := by
  have hzero (k : Nat) : '\r' ∉ List.replicate k '0' := fun hm =>
    absurd (List.eq_of_mem_replicate hm) (by decide)
  have htake (k : Nat) : '\r' ∉ ds.take k := fun hm => h (List.mem_of_mem_take hm)
  have hdrop (k : Nat) : '\r' ∉ ds.drop k := fun hm => h (List.mem_of_mem_drop hm)
  unfold FloatStyle.positional
  split
  · simp [hzero, h]
  · dsimp only
    split <;> simp [FloatStyle.plain, hzero, h, htake, hdrop]

theorem return_not_mem_scientific {ds : List Char} (h : '\r' ∉ ds) (first : Int) :
    '\r' ∉ FloatStyle.plain.scientific ds first := by
  have hzero (k : Nat) : '\r' ∉ List.replicate k '0' := fun hm =>
    absurd (List.eq_of_mem_replicate hm) (by decide)
  have hpower : '\r' ∉ Text.decimalDigits first.natAbs := by
    rw [Text.decimalDigits, Nat.toList_repr]
    exact return_not_mem_toDigits _
  have hmark : '\r' ≠ if first < 0 then '-' else '+' := by split <;> decide
  cases ds with
  | nil => simp [FloatStyle.scientific, hzero, hpower, hmark]
  | cons d fs =>
      cases fs with
      | nil => simp [FloatStyle.scientific, hzero, hpower, hmark, List.mem_singleton.not.mp h]
      | cons f fs =>
          simp only [List.mem_cons, not_or] at h
          simp [FloatStyle.scientific, hzero, hpower, hmark, h]

theorem return_not_mem_floatText {x : Binary64} (hx : x.Tidy) : '\r' ∉ floatText x := by
  cases x with
  | nan => decide
  | infinite negative => cases negative <;> decide
  | finite negative m e =>
      have hsign : '\r' ∉ (if negative then ['-'] else []) := by cases negative <;> decide
      have hdigits : '\r' ∉ Text.decimalDigits (Binary64.shortest m e).digits := by
        rw [Text.decimalDigits, Nat.toList_repr]
        exact return_not_mem_toDigits _
      rw [floatText_finite, List.mem_append, not_or]
      refine ⟨hsign, ?_⟩
      split
      · decide
      · rw [FloatStyle.positive]
        split
        · exact return_not_mem_positional hdigits _
        · exact return_not_mem_scientific hdigits _

theorem return_not_mem_blanks {sp : List Char} (h : Blanks sp) : '\r' ∉ sp := fun hm => by
  rcases h _ hm with h | h <;> cases h

theorem return_not_mem_separator (layout : Layout) (level : Nat) :
    '\r' ∉ separator layout level := by
  obtain ⟨sp, hsp, hb⟩ := separator_eq layout level
  rw [hsp, List.mem_cons, not_or]
  exact ⟨by decide, return_not_mem_blanks hb⟩

mutual

theorem return_not_mem_write (layout : Layout) : ∀ {v : Json}, v.Tidy → ∀ level : Nat,
    '\r' ∉ write layout level v
  | .null, _, level => by rw [write]; decide
  | .bool b, _, level => by rw [write]; cases b <;> decide
  | .int i, _, level => by rw [write]; exact return_not_mem_ofInt i
  | .float x, hv, level => by rw [write]; exact return_not_mem_floatText hv
  | .str s, _, level => by rw [write]; exact return_not_mem_stringText _ s
  | .arr [], _, level => by rw [write]; decide
  | .arr (v :: vs), hv, level => by
      simp [write, return_not_mem_write layout hv.1, return_not_mem_writeItems layout hv.2,
        return_not_mem_blanks (blanks_lineBreak layout _)]
  | .obj [], _, level => by rw [write]; decide
  | .obj ((k, v) :: ms), hv, level => by
      simp [write, return_not_mem_write layout hv.2.1, return_not_mem_writeMembers layout hv.2.2,
        return_not_mem_blanks (blanks_lineBreak layout _), return_not_mem_stringText]

theorem return_not_mem_writeItems (layout : Layout) : ∀ {vs : List Json}, TidyItems vs →
    ∀ level : Nat, '\r' ∉ writeItems layout level vs
  | [], _, level => nofun
  | v :: vs, hv, level => by
      simp [writeItems, return_not_mem_separator, return_not_mem_write layout hv.1,
        return_not_mem_writeItems layout hv.2]

theorem return_not_mem_writeMembers (layout : Layout) : ∀ {ms : Members}, TidyMembers ms →
    ∀ level : Nat, '\r' ∉ writeMembers layout level ms
  | [], _, level => nofun
  | (k, v) :: ms, hv, level => by
      simp [writeMembers, return_not_mem_separator, return_not_mem_stringText,
        return_not_mem_write layout hv.1, return_not_mem_writeMembers layout hv.2]

end

/-! ## Texts -/

/-- The text of a value with a line break at the end keeps its line breaks in a file. -/
theorem unifyLineBreaks_render (layout : Layout) {v : Json} (hv : v.Tidy) :
    Text.unifyLineBreaks (v.render layout ++ "\n") = v.render layout ++ "\n" := by
  refine Text.unifyLineBreaks_eq ?_
  rw [String.toList_append, render, String.toList_ofList, List.mem_append, not_or]
  exact ⟨return_not_mem_write layout hv 0, by decide⟩

/-- The text of a value with a line break at the end is read back. -/
theorem parse?_render (layout : Layout) {v : Json} (hv : v.Tidy) :
    parse? (v.render layout ++ "\n") = some v := by
  rw [parse?, String.toList_append, render, String.toList_ofList]
  exact parseChars?_write layout hv fun c hc => .inr (List.mem_singleton.mp hc)

end IntentBuild.Json
