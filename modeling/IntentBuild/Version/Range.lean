import IntentBuild.Text.Blank
import IntentBuild.Version.Basic

/-!
# The least version of a range

A dependency is declared with a simple range such as `^1.2.0`, `~3.1` or `>=2`.  The least
version that it admits is what follows its operators.  A range of any other form, such as `*`
or an address, is unreadable.

`isHigher` compares two ranges by their least versions.  An unreadable side never makes the
first range the higher one, and any range is higher than none.
-/

namespace IntentBuild.Version

/-- The text after the operators of a range. -/
def afterOperators : List Char → List Char
  | '<' :: '=' :: cs => afterOperators cs
  | '>' :: '=' :: cs => afterOperators cs
  | c :: cs =>
      if c == '~' || c == '^' || c == '=' || c == 'v' || c == '<' || c == '>' then
        afterOperators cs
      else c :: cs
  | [] => []

/-- The text of a range without blanks around it and without operators. -/
def rangeBody (spec : String) : String :=
  Text.trim (String.ofList (afterOperators (spec.toList.dropWhile Text.isBlank)))

/-- The least version that a simple range admits. -/
def leastOf? (spec : String) : Option Version := parse? (rangeBody spec)

/-- The range is readable. -/
def isReadable (spec : String) : Bool := (leastOf? spec).isSome

/-- The least version of the first range sorts strictly above that of the second.  Any range is
higher than none. -/
def isHigher (candidate : String) (current : Option String) : Bool :=
  match current with
  | none => true
  | some other =>
      match leastOf? candidate, leastOf? other with
      | some v, some w => v.above w
      | _, _ => false

example : isHigher "^1.2.0" (some "~1.1") = true := by decide +kernel
example : isHigher "*" (some "1") = false := by decide +kernel
example : isHigher "1.0.0" (some "1.0.0-rc.1") = true := by decide +kernel

end IntentBuild.Version
