import IntentBuild.Number.Binary64

/-!
# The shortest decimal of a number

The reals that round to a positive number `m · 2^e` form an interval around it.  Its ends
belong to it when `m` is even.  `shortest` finds the decimal with the fewest digits in that
interval, and of two such decimals the nearer one.  An exact tie goes to the even digit.

For each count of digits the decimals form a grid, and if a point of the grid lies in the
interval then so does one of the two neighbours of the number on the grid.  Seventeen digits
are always enough.
-/

namespace IntentBuild.Binary64

/-- A decimal `digits · 10^exponent`. -/
structure Decimal where
  /-- The digits, as a number. -/
  digits : Nat
  /-- The power of ten that the digits are multiplied with. -/
  exponent : Int
deriving DecidableEq, Repr, Inhabited

/-- The number `n · 10^k` over the denominator `d`, as a pair. -/
def scaleTen (n d : Nat) (k : Int) : Nat × Nat :=
  if 0 ≤ k then (n * Nat.pow 10 k.toNat, d) else (n, d * Nat.pow 10 (-k).toNat)

/-- The exponent `E` with `10^E ≤ num / den < 10^(E + 1)`. -/
def decimalExponent (num den : Nat) : Int :=
  let guess : Int := (Nat.toDigits 10 num).length - (Nat.toDigits 10 den).length
  let (n, d) := scaleTen 1 1 guess
  if num * d < n * den then guess - 1 else guess

/-- The interval of the reals that round to `m · 2^e`, in quarters of `2^e`. -/
structure Interval where
  /-- The lower end. -/
  low : Nat
  /-- The upper end. -/
  high : Nat
  /-- The ends belong to the interval. -/
  closed : Bool

/-- The interval of the significand `m` at the exponent `e`. -/
def intervalOf (m : Nat) (e : Int) : Interval :=
  { low := if m == leastNormal && minExponent < e then 4 * m - 1 else 4 * m - 2
    high := 4 * m + 2
    closed := m % 2 == 0 }

/-- The point `c · 10^k` lies in the interval, whose unit is `unit / share`. -/
def Interval.holds (i : Interval) (unit share : Nat) (c : Nat) (k : Int) : Bool :=
  let (n, d) := scaleTen c 1 k
  let point := n * share
  let low := i.low * unit * d
  let high := i.high * unit * d
  if i.closed then low ≤ point && point ≤ high else low < point && point < high

/-- The decimal of `n` digits that lies in the interval of `m · 2^e` and is nearest to it. -/
def nearestOnGrid? (m : Nat) (e : Int) (n : Nat) : Option Decimal :=
  let unit := if 0 ≤ e - 2 then Nat.pow 2 (e - 2).toNat else 1
  let share := if 0 ≤ e - 2 then 1 else Nat.pow 2 (2 - e).toNat
  let i := intervalOf m e
  let k := decimalExponent (4 * m * unit) share - n + 1
  let (gn, gd) := scaleTen 1 1 k
  let num := 4 * m * unit * gd
  let den := share * gn
  let c := num / den
  let below := i.holds unit share c k
  let above := i.holds unit share (c + 1) k
  let rest := 2 * (num % den)
  if below && (!above || rest < den || (rest == den && c % 2 == 0)) then some ⟨c, k⟩
  else if above then some ⟨c + 1, k⟩
  else none

/-- Moves zeros at the end of the digits into the exponent.  The fuel bounds their count. -/
def Decimal.dropZeros : (fuel : Nat) → Decimal → Decimal
  | 0, d => d
  | fuel + 1, d =>
      if d.digits != 0 && d.digits % 10 == 0 then
        dropZeros fuel ⟨d.digits / 10, d.exponent + 1⟩
      else d

/-- The shortest decimal that rounds to `m · 2^e`, for a positive `m`. -/
def shortest (m : Nat) (e : Int) : Decimal :=
  let found := ((List.range 17).map (· + 1)).findSome? (nearestOnGrid? m e)
  (found.getD ⟨m, 0⟩).dropZeros 20

example : shortest 1 (-1074) = ⟨5, -324⟩ := by decide +kernel
example : shortest leastNormal (-53) = ⟨5, -1⟩ := by decide +kernel

end IntentBuild.Binary64
