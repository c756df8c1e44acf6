import IntentBuild.Text.Blank
import IntentBuild.Text.Digit

/-!
# Integers as people write them

An integer is written with blanks around it, an optional sign, and digits of any script.  A
single underscore may stand between two digits.  `readInteger?` reads this form.

`readLooseInteger?` reads the form that documents may use for an integer field.  Only the
digits `0` to `9` count, a fraction of zeros is allowed, and leading zeros may be separated
freely by underscores.
-/

namespace IntentBuild.Text

/-- Splits off an optional sign.  The first part says whether it was a minus. -/
def splitSign : List Char → Bool × List Char
  | '-' :: cs => (true, cs)
  | '+' :: cs => (false, cs)
  | cs => (false, cs)

/-- A number with its sign. -/
def signed (negative : Bool) (n : Nat) : Int :=
  if negative then -(n : Int) else n

/-- The digit values of `d(_?d)*`, for digits read by `value?`.  The first argument says that
a digit was just read, so that an underscore or the end may follow. -/
def separatedDigits? (value? : Char → Option Nat) : Bool → List Char → Option (List Nat)
  | afterDigit, [] => if afterDigit then some [] else none
  | afterDigit, c :: cs =>
      match value? c with
      | some d => (separatedDigits? value? true cs).map (d :: ·)
      | none => if afterDigit && c == '_' then separatedDigits? value? false cs else none

/-- The value of an integer with blanks around it, a sign and digits of any script. -/
def readInteger? (s : String) : Option Int :=
  let (negative, body) := splitSign (trimBothBy isSpace s.toList)
  (separatedDigits? digitValue? false body).map fun ds => signed negative (ofDigitValues ds)

/-- The value of a digit `0` to `9`, and nothing for other characters. -/
def asciiDigitValue? (c : Char) : Option Nat :=
  if isAsciiDigit c then some (asciiDigitValue c) else none

/-- Drops leading zeros, and the underscores among them.  One zero is kept when no other digit
follows at once. -/
def dropLeadingZeros : List Char → List Char
  | '0' :: cs =>
      match cs.dropWhile (fun c => c == '0' || c == '_') with
      | [] => if cs.getLast? == some '_' then ['_'] else ['0']
      | c :: rest =>
          if isAsciiDigit c then c :: rest
          else (((('0' :: cs).takeWhile fun d => d == '0' || d == '_').getLast?).getD '0') ::
            c :: rest
  | cs => cs

/-- Drops a point followed by nothing but zeros. -/
def dropZeroFraction (cs : List Char) : List Char :=
  let (whole, rest) := cs.span (· != '.')
  match rest with
  | '.' :: fraction => if fraction.all (· == '0') then whole else cs
  | _ => cs

/-- The value of an integer field written as text: white space around, a sign, the digits `0`
to `9`, single underscores between them, and a fraction of zeros. -/
def readLooseInteger? (s : String) : Option Int :=
  let (negative, body) := splitSign (trimBothBy isSpace s.toList)
  match body with
  | [] => none
  | c :: _ =>
      if isAsciiDigit c then
        (separatedDigits? asciiDigitValue? false (dropZeroFraction (dropLeadingZeros body))).map
          fun ds => signed negative (ofDigitValues ds)
      else none

example : readInteger? " -1_000\n" = some (-1000) := by decide
example : readInteger? "1__0" = none := by decide
example : readInteger? "" = none := by decide
example : readLooseInteger? "007.00" = some 7 := by decide
example : readLooseInteger? "0.0" = some 0 := by decide
example : readLooseInteger? "0x10" = none := by decide
example : readLooseInteger? "1.5" = none := by decide

end IntentBuild.Text
