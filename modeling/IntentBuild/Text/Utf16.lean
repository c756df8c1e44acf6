/-!
# The order of UTF-16 units

A character above `U+FFFF` is written with two units of sixteen bits.  Texts may be ordered by
these units, which differs from the order of characters: the units `U+D800` to `U+DFFF` of the
pairs sort below the characters `U+E000` to `U+FFFF`.
-/

namespace IntentBuild.Text

/-- The UTF-16 units of a character. -/
def utf16Units (c : Char) : List Nat :=
  let n := c.toNat
  if n < 0x10000 then [n]
  else [0xD800 + (n - 0x10000) / 0x400, 0xDC00 + (n - 0x10000) % 0x400]

/-- The UTF-16 units of a text. -/
def utf16 (s : String) : List Nat := s.toList.flatMap utf16Units

/-- The lexicographic order of lists of numbers, a proper start first. -/
def unitsLe : List Nat → List Nat → Bool
  | [], _ => true
  | _ :: _, [] => false
  | a :: as, b :: bs => a < b || (a == b && unitsLe as bs)

/-- The order of two texts by their UTF-16 units. -/
def utf16Le (s t : String) : Bool := unitsLe (utf16 s) (utf16 t)

/-- The order of two texts by their characters. -/
def charsLe (s t : String) : Bool :=
  unitsLe (s.toList.map Char.toNat) (t.toList.map Char.toNat)

/-- The character that two UTF-16 units of a pair stand for. -/
def ofSurrogates (high low : Nat) : Char :=
  Char.ofNat (0x10000 + (high - 0xD800) * 0x400 + (low - 0xDC00))

/-- The unit is the first of a pair. -/
def isHighSurrogate (n : Nat) : Bool := 0xD800 ≤ n && n ≤ 0xDBFF

/-- The unit is the second of a pair. -/
def isLowSurrogate (n : Nat) : Bool := 0xDC00 ≤ n && n ≤ 0xDFFF

example : utf16 "😀" = [0xD83D, 0xDE00] := by decide
example : utf16Le "😀" "\uffff" = true := by decide
example : charsLe "😀" "\uffff" = false := by decide

end IntentBuild.Text
