import IntentBuild.Sorting
import IntentBuild.Text.Utf16

/-!
# Finding and cutting in a text

Parts of a text by position, by delimiter and by content.  Positions and lengths count
characters.
-/

namespace IntentBuild.Text

/-- The place of the first occurrence of a row of characters. -/
def findIn? (part : List Char) : List Char → Option Nat
  | [] => if part.isEmpty then some 0 else none
  | c :: cs =>
      if part.isPrefixOf (c :: cs) then some 0 else (findIn? part cs).map (· + 1)

/-- The text contains another one. -/
def containsText (s part : String) : Bool := (findIn? part.toList s.toList).isSome

/-- The text begins with another one. -/
def beginsWith (s start : String) : Bool := start.toList.isPrefixOf s.toList

/-- The text ends with another one. -/
def finishesWith (s ending : String) : Bool :=
  ending.toList.reverse.isPrefixOf s.toList.reverse

/-- The first `n` characters. -/
def takeChars (n : Nat) (s : String) : String := String.ofList (s.toList.take n)

/-- The text after its first `n` characters. -/
def dropChars (n : Nat) (s : String) : String := String.ofList (s.toList.drop n)

/-- The text without its last `n` characters. -/
def dropLastChars (n : Nat) (s : String) : String :=
  takeChars (s.toList.length - n) s

/-- The parts of a row of characters between the characters that satisfy `p`, at least one. -/
def splitChars (p : Char → Bool) : List Char → List (List Char)
  | [] => [[]]
  | c :: cs =>
      if p c then [] :: splitChars p cs
      else match splitChars p cs with
        | [] => [[c]]
        | part :: parts => (c :: part) :: parts

/-- The parts of a text between the occurrences of a character, at least one. -/
def splitAt (d : Char) (s : String) : List String :=
  (splitChars (· == d) s.toList).map String.ofList

/-- The text before the first line break. -/
def firstLine (s : String) : String :=
  String.ofList (s.toList.takeWhile (· != '\n'))

/-- The text with one character put in place of another. -/
def replaceChar (old new : Char) (s : String) : String :=
  String.ofList (s.toList.map fun c => if c == old then new else c)

/-- Texts joined with a separator between them. -/
def joinWith (sep : String) (parts : List String) : String := sep.intercalate parts

/-- Texts in ascending order of characters. -/
def sortTexts (ts : List String) : List String := Sorting.sort charsLe ts

/-- Pairs in ascending order of the characters of their keys. -/
def sortByKey {α : Type} (members : List (String × α)) : List (String × α) :=
  Sorting.sort (fun a b => charsLe a.1 b.1) members

/-- A row of characters with line breaks `\r\n` and `\r` written as `\n`. -/
def unifyBreaks : List Char → List Char
  | [] => []
  | '\r' :: '\n' :: cs => '\n' :: unifyBreaks cs
  | '\r' :: cs => '\n' :: unifyBreaks cs
  | c :: cs => c :: unifyBreaks cs

/-- The text with line breaks `\r\n` and `\r` written as `\n`. -/
def unifyLineBreaks (s : String) : String := String.ofList (unifyBreaks s.toList)

example : splitAt '.' "a..b" = ["a", "", "b"] := by decide
example : unifyLineBreaks "a\r\nb\rc\n" = "a\nb\nc\n" := by decide
example : findIn? ['b'] ['a', 'b'] = some 1 := by decide
example : sortTexts ["b", "a", "B"] = ["B", "a", "b"] := by cbv

end IntentBuild.Text
