import IntentBuild.Json.Basic
import IntentBuild.Text.Digit
import IntentBuild.Text.Hex
import IntentBuild.Text.Utf16

/-!
# Reading JSON

The reader takes a text to a JSON value.  Beyond the standard it accepts `NaN`, `Infinity` and
`-Infinity`.  A number with a point or an exponent is a floating point number, and any other
number is an integer.  Control characters in strings, escapes of half a surrogate pair and a
byte order mark are refused.

Every reading function returns the value and the rest of the text.  The fuel of `readValue?`
bounds the nesting and the count of the items, and the length of the text is always enough.
-/

namespace IntentBuild.Json

/-- The text that follows a JSON white space character run. -/
def skipSpace (cs : List Char) : List Char :=
  cs.dropWhile fun c => c == ' ' || c == '\n' || c == '\t' || c == '\r'

/-- The character that a letter after a backslash stands for. -/
def escape? (c : Char) : Option Char :=
  if c == '"' || c == '\\' || c == '/' then some c
  else if c == 'b' then some '\x08'
  else if c == 'f' then some '\x0c'
  else if c == 'n' then some '\n'
  else if c == 'r' then some '\r'
  else if c == 't' then some '\t'
  else none

/-- The characters of a string up to its closing quote, and the rest after the quote. -/
def stringBody? : List Char → Option (List Char × List Char)
  | [] => none
  | '"' :: cs => some ([], cs)
  | '\\' :: 'u' :: a :: b :: c :: d :: cs =>
      match Text.hexQuad? a b c d with
      | none => none
      | some n =>
          if Text.isHighSurrogate n then
            match cs with
            | '\\' :: 'u' :: e :: f :: g :: h :: rest =>
                match Text.hexQuad? e f g h with
                | some m =>
                    if Text.isLowSurrogate m then
                      (stringBody? rest).map fun r => (Text.ofSurrogates n m :: r.1, r.2)
                    else none
                | none => none
            | _ => none
          else if Text.isLowSurrogate n then none
          else (stringBody? cs).map fun r => (Char.ofNat n :: r.1, r.2)
  | '\\' :: c :: cs =>
      match escape? c with
      | some e => (stringBody? cs).map fun r => (e :: r.1, r.2)
      | none => none
  | c :: cs =>
      if c.toNat < 0x20 then none else (stringBody? cs).map fun r => (c :: r.1, r.2)

/-- A fraction: the digits after a point, at least one, and the rest.  Without a fraction the
digits are empty. -/
def fraction (cs : List Char) : List Char × List Char :=
  match cs with
  | '.' :: d :: rest =>
      if Text.isAsciiDigit d then
        let r := (d :: rest).span Text.isAsciiDigit
        (r.1, r.2)
      else ([], cs)
  | _ => ([], cs)

/-- An exponent: its value and the rest, when one stands here. -/
def exponent? (cs : List Char) : Option (Int × List Char) :=
  match cs with
  | e :: rest =>
      if e == 'e' || e == 'E' then
        let (negative, body) :=
          match rest with
          | '-' :: r => (true, r)
          | '+' :: r => (false, r)
          | r => (false, r)
        let (ds, after) := body.span Text.isAsciiDigit
        if ds.isEmpty then none
        else
          let n : Int := Text.ofAsciiDigits ds
          some (if negative then -n else n, after)
      else none
  | [] => none

/-- The whole part of a number: no leading zero stands before another digit. -/
def wholePart? (cs : List Char) : Option (List Char × List Char) :=
  match cs with
  | '0' :: rest => some (['0'], rest)
  | c :: rest =>
      if Text.isAsciiDigit c then some ((c :: rest).span Text.isAsciiDigit) else none
  | [] => none

/-- A number without its sign. -/
def readNumber? (negative : Bool) (cs : List Char) : Option (Json × List Char) :=
  match wholePart? cs with
  | none => none
  | some (whole, rest) =>
      let (digits, afterFraction) := fraction rest
      let power := exponent? afterFraction
      let after := (power.map Prod.snd).getD afterFraction
      let n := Text.ofAsciiDigits (whole ++ digits)
      if digits.isEmpty && power.isNone then
        some (.int (if negative then -(n : Int) else n), after)
      else
        let e := (power.map Prod.fst).getD 0 - digits.length
        some (.float (Binary64.ofDecimal negative n e), after)

/-- A word that stands for a value. -/
def readWord? (cs : List Char) : Option (Json × List Char) :=
  match cs with
  | 'n' :: 'u' :: 'l' :: 'l' :: rest => some (.null, rest)
  | 't' :: 'r' :: 'u' :: 'e' :: rest => some (.bool true, rest)
  | 'f' :: 'a' :: 'l' :: 's' :: 'e' :: rest => some (.bool false, rest)
  | 'N' :: 'a' :: 'N' :: rest => some (.float .nan, rest)
  | 'I' :: 'n' :: 'f' :: 'i' :: 'n' :: 'i' :: 't' :: 'y' :: rest =>
      some (.float (.infinite false), rest)
  | '-' :: 'I' :: 'n' :: 'f' :: 'i' :: 'n' :: 'i' :: 't' :: 'y' :: rest =>
      some (.float (.infinite true), rest)
  | '-' :: rest => readNumber? true rest
  | _ => readNumber? false cs

mutual

/-- A value at the start of the text, and the rest. -/
def readValue? : (fuel : Nat) → List Char → Option (Json × List Char)
  | 0, _ => none
  | fuel + 1, cs =>
      match skipSpace cs with
      | '{' :: rest =>
          match skipSpace rest with
          | '}' :: after => some (.obj [], after)
          | start => (readMembers? fuel start).map fun r => (.obj (Assoc.ofEntries r.1), r.2)
      | '[' :: rest =>
          match skipSpace rest with
          | ']' :: after => some (.arr [], after)
          | start => (readItems? fuel start).map fun r => (.arr r.1, r.2)
      | '"' :: rest => (stringBody? rest).map fun r => (.str (String.ofList r.1), r.2)
      | start => readWord? start

/-- The items of a list up to its closing bracket, and the rest. -/
def readItems? : (fuel : Nat) → List Char → Option (List Json × List Char)
  | 0, _ => none
  | fuel + 1, cs =>
      match readValue? fuel cs with
      | none => none
      | some (v, rest) =>
          match skipSpace rest with
          | ']' :: after => some ([v], after)
          | ',' :: more => (readItems? fuel more).map fun r => (v :: r.1, r.2)
          | _ => none

/-- The members of an object up to its closing brace, and the rest. -/
def readMembers? : (fuel : Nat) → List Char → Option (Members × List Char)
  | 0, _ => none
  | fuel + 1, cs =>
      match cs with
      | '"' :: start =>
          match stringBody? start with
          | none => none
          | some (key, rest) =>
              match skipSpace rest with
              | ':' :: more =>
                  match readValue? fuel more with
                  | none => none
                  | some (v, rest) =>
                      let k := String.ofList key
                      match skipSpace rest with
                      | '}' :: after => some ([(k, v)], after)
                      | ',' :: more =>
                          (readMembers? fuel (skipSpace more)).map fun r => ((k, v) :: r.1, r.2)
                      | _ => none
              | _ => none
      | _ => none

end

/-- The JSON value that a row of characters spells. -/
def parseChars? (cs : List Char) : Option Json :=
  match readValue? (cs.length + 1) cs with
  | some (v, rest) => if (skipSpace rest).isEmpty then some v else none
  | none => none

/-- The JSON value that a text spells. -/
def parse? (s : String) : Option Json := parseChars? s.toList

end IntentBuild.Json
