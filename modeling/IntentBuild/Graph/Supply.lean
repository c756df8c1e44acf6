import IntentBuild.Text.Hex
import IntentBuild.Time.Stamp

/-!
# Fresh identifiers and times

New nodes, edges and records need an identifier that was never used and the time of their
creation.  A supply gives both.  Each identifier is the next number, written with hexadecimal
digits, at least 32 of them, and each time is a microsecond after the one before.  Different
numbers have different identifiers, so no identifier is ever given twice.
-/

namespace IntentBuild

/-- Identifiers and times that were not given yet. -/
structure Supply where
  /-- The number of the next identifier. -/
  nextId : Nat
  /-- The next time, in microseconds. -/
  nextTime : Int
deriving DecidableEq, Repr, Inhabited

namespace Supply

/-- How many hexadecimal digits the identifier of a number has. -/
def idWidth (n : Nat) : Nat := max 32 (n.log2 / 4 + 1)

/-- The identifier of a number. -/
def idOf (n : Nat) : String := String.ofList (Text.hexDigits (idWidth n) n)

/-- The next identifier. -/
def takeId (s : Supply) : String × Supply := (idOf s.nextId, { s with nextId := s.nextId + 1 })

/-- The next time. -/
def takeTime (s : Supply) : Stamp × Supply :=
  (Stamp.universal s.nextTime, { s with nextTime := s.nextTime + 1 })

end Supply

/-- A value that is complete but for what a supply gives. -/
abbrev Draft (α : Type) := StateM Supply α

namespace Draft

/-- An identifier, unless one is given. -/
def orFreshId : Option String → Draft String
  | some id => pure id
  | none => fun s => s.takeId

/-- A time, unless one is given. -/
def orNow : Option Stamp → Draft Stamp
  | some t => pure t
  | none => fun s => s.takeTime

end Draft

end IntentBuild
