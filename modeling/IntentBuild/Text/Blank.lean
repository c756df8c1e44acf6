/-!
# Blank characters

Two sets of characters count as blank.  `isSpace` is the set of characters with the white
space property.  `isBlank` adds the four information separators `U+001C` to `U+001F`.  Text
that people write is trimmed with `trim`, which removes the wider set from both ends.
-/

namespace IntentBuild.Text

/-- Characters with the white space property. -/
def isSpace (c : Char) : Bool :=
  let n := c.toNat
  (9 ≤ n && n ≤ 13) || n == 0x20 || n == 0x85 || n == 0xA0 || n == 0x1680 ||
    (0x2000 ≤ n && n ≤ 0x200A) || n == 0x2028 || n == 0x2029 || n == 0x202F ||
    n == 0x205F || n == 0x3000

/-- White space and the information separators `U+001C` to `U+001F`. -/
def isBlank (c : Char) : Bool :=
  isSpace c || (0x1C ≤ c.toNat && c.toNat ≤ 0x1F)

/-- The characters left when those of a class are dropped from both ends. -/
def trimBothBy (p : Char → Bool) (cs : List Char) : List Char :=
  ((cs.dropWhile p).reverse.dropWhile p).reverse

/-- The text without blanks at either end. -/
def trim (s : String) : String :=
  String.ofList (trimBothBy isBlank s.toList)

/-- The text has a character that is not blank. -/
def hasInk (s : String) : Bool :=
  s.toList.any fun c => !isBlank c

example : trim " \t a b\x0c\n" = "a b" := by decide
example : hasInk " \x1c" = false := by decide

end IntentBuild.Text
