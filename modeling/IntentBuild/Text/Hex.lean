/-!
# Hexadecimal digits

Numbers written in base sixteen with a fixed number of lower case digits, and the values of
hexadecimal digits of either case.
-/

namespace IntentBuild.Text

/-- The lower case hexadecimal digit of a number below sixteen. -/
def hexDigit (n : Nat) : Char :=
  if n < 10 then Char.ofNat (n + 48) else Char.ofNat (n + 87)

/-- The last `width` hexadecimal digits of a number. -/
def hexDigits : (width : Nat) → Nat → List Char
  | 0, _ => []
  | width + 1, n => hexDigits width (n / 16) ++ [hexDigit (n % 16)]

/-- The value of a hexadecimal digit of either case. -/
def hexValue? (c : Char) : Option Nat :=
  if '0' ≤ c && c ≤ '9' then some (c.toNat - 48)
  else if 'a' ≤ c && c ≤ 'f' then some (c.toNat - 87)
  else if 'A' ≤ c && c ≤ 'F' then some (c.toNat - 55)
  else none

/-- The number that four hexadecimal digits spell. -/
def hexQuad? (a b c d : Char) : Option Nat := do
  return (← hexValue? a) * 4096 + (← hexValue? b) * 256 + (← hexValue? c) * 16 + (← hexValue? d)

/-- The bytes with two hexadecimal digits each. -/
def hexOfBytes (b : ByteArray) : String :=
  String.ofList (b.data.toList.flatMap fun x => hexDigits 2 x.toNat)

/-- The bytes that pairs of hexadecimal digits spell.  Reading ends where no digits follow. -/
def bytesOfHex : List Char → List UInt8
  | a :: b :: cs =>
      match hexValue? a, hexValue? b with
      | some m, some n => UInt8.ofNat (m * 16 + n) :: bytesOfHex cs
      | _, _ => []
  | _ => []

example : bytesOfHex ['0', 'a', 'F', 'f'] = [10, 255] := by decide
example : hexDigits 4 233 = ['0', '0', 'e', '9'] := by decide
example : hexQuad? '0' '0' 'E' '9' = some 233 := by decide

end IntentBuild.Text
