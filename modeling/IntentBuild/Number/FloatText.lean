import IntentBuild.Number.Shortest
import IntentBuild.Text.Digit

/-!
# Numbers as text

A finite number is written with its shortest digits, either with a point at its place or with
one digit before the point and a power of ten.  A `FloatStyle` says which of the two a number
takes and how the details look.  There are two styles: `FloatStyle.plain` for values that
people read and `FloatStyle.interchange` for text that is hashed.
-/

namespace IntentBuild

/-- The details of writing a number. -/
structure FloatStyle where
  /-- The least power of ten of the first digit that is written without an exponent. -/
  leastPlain : Int
  /-- The power of ten from which on an exponent is written. -/
  leastLarge : Int
  /-- A whole number ends in `.0`. -/
  markWhole : Bool
  /-- The least count of digits of an exponent. -/
  exponentWidth : Nat
  /-- A negative zero keeps its sign. -/
  signZero : Bool

namespace FloatStyle

/-- Whole numbers end in `.0`, and an exponent has two digits and is used from `10^16` on and
below `10^-4`. -/
def plain : FloatStyle := ⟨-4, 16, true, 2, true⟩

/-- Whole numbers have no point, and an exponent is used from `10^21` on and below `10^-6`. -/
def interchange : FloatStyle := ⟨-6, 21, false, 1, false⟩

/-- Digits with a point, where the first digit has the power of ten `first`. -/
def positional (style : FloatStyle) (ds : List Char) (first : Int) : List Char :=
  if first < 0 then
    '0' :: '.' :: (List.replicate (-first - 1).toNat '0' ++ ds)
  else
    let whole := first.toNat + 1
    if ds.length ≤ whole then
      ds ++ List.replicate (whole - ds.length) '0' ++ (if style.markWhole then ['.', '0'] else [])
    else ds.take whole ++ '.' :: ds.drop whole

/-- Digits with one of them before the point, and the power of ten of the first digit. -/
def scientific (style : FloatStyle) (ds : List Char) (first : Int) : List Char :=
  let power := Text.decimalDigits first.natAbs
  let mark := if first < 0 then '-' else '+'
  let mantissa :=
    match ds with
    | d :: r :: rest => d :: '.' :: r :: rest
    | _ => ds
  mantissa ++ 'e' :: mark ::
    (List.replicate (style.exponentWidth - power.length) '0' ++ power)

/-- The text of a positive number with the significand `m` and the exponent `e`. -/
def positive (style : FloatStyle) (m : Nat) (e : Int) : List Char :=
  let d := Binary64.shortest m e
  let ds := Text.decimalDigits d.digits
  let first := d.exponent + ds.length - 1
  if style.leastPlain ≤ first && first < style.leastLarge then style.positional ds first
  else style.scientific ds first

end FloatStyle

namespace Binary64

/-- The text of a number in a style. -/
def render (style : FloatStyle) : Binary64 → String
  | .nan => "nan"
  | .infinite negative => if negative then "-inf" else "inf"
  | .finite negative m e =>
      let sign := if negative && (m != 0 || style.signZero) then ['-'] else []
      let body :=
        if m == 0 then (if style.markWhole then ['0', '.', '0'] else ['0'])
        else style.positive m e
      String.ofList (sign ++ body)

example : (ofDecimal false 1 16).render .plain = "1e+16" := by decide +kernel
example : (ofDecimal false 15 (-1)).render .plain = "1.5" := by decide +kernel
example : (ofDecimal false 1 (-7)).render .plain = "1e-07" := by decide +kernel
example : (ofDecimal true 0 0).render .plain = "-0.0" := by decide +kernel
example : (ofDecimal true 0 0).render .interchange = "0" := by decide +kernel
example : (ofDecimal false 1 20).render .interchange = "100000000000000000000" := by
  decide +kernel

end Binary64

end IntentBuild
