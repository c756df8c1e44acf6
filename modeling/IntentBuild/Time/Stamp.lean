import IntentBuild.Number.Binary64
import IntentBuild.Text.IntegerLiteral

/-!
# Points in time

A stamp counts microseconds from the start of 1970.  With an offset from universal time it names
a point in time, and without one it only names what a clock on a wall shows.  Stamps of the two
kinds have no order between them.

`Stamp.parse?` reads a date and a time as documents write them.  `Stamp.document` writes this
form again, with `Z` for the offset zero, and `Stamp.iso` writes `+00:00` instead.
`Stamp.parseCount?` reads a count of seconds.
-/

namespace IntentBuild

/-- A point in time, or the reading of a clock without an offset. -/
structure Stamp where
  /-- Microseconds from the start of 1970 in universal time.  Without an offset, those that the
  clock shows. -/
  micros : Int
  /-- The offset of the clock from universal time, in minutes. -/
  offset : Option Int
deriving DecidableEq, Repr, Inhabited

namespace Stamp

/-- The stamp of a point in universal time. -/
def universal (micros : Int) : Stamp := ⟨micros, some 0⟩

/-- The two stamps have an order. -/
def comparable (a b : Stamp) : Bool := a.offset.isSome == b.offset.isSome

/-- The first stamp is not after the second. -/
def le (a b : Stamp) : Bool := a.micros ≤ b.micros

/-- Microseconds of a second. -/
def perSecond : Int := 1000000

/-- The stamp as a count of seconds, when it is a whole number. -/
def seconds? (a : Stamp) : Option Int :=
  if a.micros % perSecond == 0 then some (a.micros / perSecond) else none

/-- The stamp as the nearest count of seconds. -/
def secondsFloat (a : Stamp) : Binary64 :=
  Binary64.ofRatio (a.micros < 0) a.micros.natAbs 1000000

/-- The year, the month and the day that start some days after the start of 1970. -/
def civil (days : Int) : Int × Int × Int :=
  let z := days + 719468
  let era := z.fdiv 146097
  let doe := z - era * 146097
  let yoe := (doe - doe / 1460 + doe / 36524 - doe / 146096) / 365
  let doy := doe - (365 * yoe + yoe / 4 - yoe / 100)
  let mp := (5 * doy + 2) / 153
  let day := doy - (153 * mp + 2) / 5 + 1
  let month := if mp < 10 then mp + 3 else mp - 9
  let year := yoe + era * 400 + (if month ≤ 2 then 1 else 0)
  (year, month, day)

/-- The days from the start of 1970 to a date. -/
def daysTo (year month day : Int) : Int :=
  let y := if month ≤ 2 then year - 1 else year
  let era := y.fdiv 400
  let yoe := y - era * 400
  let doy := (153 * (if month > 2 then month - 3 else month + 9) + 2) / 5 + day - 1
  let doe := yoe * 365 + yoe / 4 - yoe / 100 + doy
  era * 146097 + doe - 719468

/-- A year with a day more in February. -/
def isLeap (year : Int) : Bool := year % 4 == 0 && (year % 100 != 0 || year % 400 == 0)

/-- The count of days of a month. -/
def daysIn (year month : Int) : Int :=
  if month == 2 then (if isLeap year then 29 else 28)
  else if month == 4 || month == 6 || month == 9 || month == 11 then 30
  else 31

/-- A number with at least `width` digits. -/
def padded (width : Nat) (n : Int) : List Char :=
  let ds := Text.decimalDigits n.toNat
  List.replicate (width - ds.length) '0' ++ ds

/-- The date and the time of a stamp as its clock shows them. -/
def wall (a : Stamp) : List Char :=
  let local' := a.micros + a.offset.getD 0 * 60 * perSecond
  let days := local'.fdiv (86400 * perSecond)
  let rest := local' - days * (86400 * perSecond)
  let (year, month, day) := civil days
  let second := rest / perSecond
  let micro := rest % perSecond
  padded 4 year ++ '-' :: padded 2 month ++ '-' :: padded 2 day ++ 'T' ::
    (padded 2 (second / 3600) ++ ':' :: padded 2 (second / 60 % 60) ++ ':' ::
      padded 2 (second % 60)) ++
    (if micro == 0 then [] else '.' :: padded 6 micro)

/-- An offset with its sign, hours and minutes. -/
def offsetText (minutes : Int) : List Char :=
  let size : Int := minutes.natAbs
  (if minutes < 0 then '-' else '+') :: (padded 2 (size / 60) ++ ':' :: padded 2 (size % 60))

/-- The stamp as documents write it. -/
def document (a : Stamp) : String :=
  String.ofList (a.wall ++
    match a.offset with
    | none => []
    | some m => if m == 0 then ['Z'] else offsetText m)

/-- The stamp with its offset in digits. -/
def iso (a : Stamp) : String :=
  String.ofList (a.wall ++
    match a.offset with
    | none => []
    | some m => offsetText m)

/-- A number of exactly `n` digits at the start of the text, and the rest. -/
def fixedDigits? (n : Nat) (cs : List Char) : Option (Int × List Char) :=
  let ds := cs.take n
  if ds.length == n && ds.all Text.isAsciiDigit then some (Text.ofAsciiDigits ds, cs.drop n)
  else none

/-- The rest of the text after a character. -/
def after? (c : Char) : List Char → Option (List Char)
  | d :: cs => if c == d then some cs else none
  | [] => none

/-- The days from the start of 1970 to the date at the start of the text, and the rest. -/
def date? (cs : List Char) : Option (Int × List Char) := do
  let (year, r1) ← fixedDigits? 4 cs
  let r2 ← after? '-' r1
  let (month, r3) ← fixedDigits? 2 r2
  let r4 ← after? '-' r3
  let (day, r5) ← fixedDigits? 2 r4
  if 1 ≤ year && 1 ≤ month && month ≤ 12 && 1 ≤ day && day ≤ daysIn year month then
    some (daysTo year month day, r5)
  else none

/-- The microseconds of a fraction of a second, of which six digits count, and the rest. -/
def fraction? (cs : List Char) : Option (Int × List Char) :=
  match cs with
  | c :: rest =>
      if c == '.' || c == ',' then
        let (ds, after) := rest.span Text.isAsciiDigit
        if ds.isEmpty then none
        else
          let six := (ds ++ List.replicate 6 '0').take 6
          some (Text.ofAsciiDigits six, after)
      else some (0, cs)
  | [] => some (0, [])

/-- The microseconds from midnight to the time at the start of the text, and the rest. -/
def time? (cs : List Char) : Option (Int × List Char) := do
  let (hour, r1) ← fixedDigits? 2 cs
  let r2 ← after? ':' r1
  let (minute, r3) ← fixedDigits? 2 r2
  let (second, micro, r4) ←
    match r3 with
    | ':' :: r =>
        match fixedDigits? 2 r with
        | some (s, r') => (fraction? r').map fun (m, r'') => (s, m, r'')
        | none => none
    | _ => some (0, 0, r3)
  if hour ≤ 23 && minute ≤ 59 && second ≤ 59 then
    some (((hour * 60 + minute) * 60 + second) * perSecond + micro, r4)
  else none

/-- The offset that the rest of a text spells, if any. -/
def offset? (cs : List Char) : Option (Option Int) :=
  match cs with
  | [] => some none
  | ['Z'] => some (some 0)
  | ['z'] => some (some 0)
  | sign :: rest =>
      if sign == '+' || sign == '-' then do
        let (hours, r1) ← fixedDigits? 2 rest
        let r2 := (after? ':' r1).getD r1
        let (minutes, r3) ← fixedDigits? 2 r2
        if r3.isEmpty && hours ≤ 23 && minutes ≤ 59 then
          let total := hours * 60 + minutes
          some (some (if sign == '-' then -total else total))
        else none
      else none

/-- A stamp from a count of seconds, or of milliseconds when the count is large. -/
def ofCount (micros : Int) : Stamp :=
  if 20000000000 * perSecond < Int.natAbs micros then universal (micros / 1000)
  else universal micros

/-- The stamp of a date and a time, or of a date alone, in the form that documents use. -/
def parse? (s : String) : Option Stamp := do
  let (days, rest) ← date? s.toList
  let midnight := days * 86400 * perSecond
  match rest with
  | [] => some ⟨midnight, none⟩
  | c :: body =>
      if c == 'T' || c == 't' || c == ' ' || c == '_' then
        let (within, r) ← time? body
        let offset ← offset? r
        some ⟨midnight + within - offset.getD 0 * 60 * perSecond, offset⟩
      else none

/-- The stamp of a count of seconds in digits. -/
def parseCount? (s : String) : Option Stamp :=
  let (negative, ds) := Text.splitSign s.toList
  if ds != [] && ds.all Text.isAsciiDigit then
    some (ofCount (Text.signed negative (Text.ofAsciiDigits ds) * perSecond))
  else none

/-- The stamp of a count of seconds that is a floating point number. -/
def ofFloat? (x : Binary64) : Option Stamp :=
  x.ratio?.map fun (num, den) => ofCount ((2 * num * perSecond + den) / (2 * den))

example : (parse? "2024-02-29T01:02:03.000450Z").map document
    = some "2024-02-29T01:02:03.000450Z" := by decide +kernel
example : (parse? "2024-02-01T00:00:00+01:00").map iso
    = some "2024-02-01T00:00:00+01:00" := by decide +kernel
example : parse? "2023-02-29T00:00:00Z" = none := by decide +kernel
example : (parse? "1970-01-02T00:00:01Z").bind seconds? = some 86401 := by decide +kernel

end Stamp

end IntentBuild
