import IntentBuild.Text.Digit
import IntentBuild.Text.Search

/-!
# Semantic versions

A version is `MAJOR.MINOR.PATCH`, with an optional pre-release after `-` and optional build
metadata after `+`.  The reader also accepts a version without patch, or without minor and
patch, and takes the missing parts as zero.

Versions are compared part by part.  A pre-release sorts below its release, its identifiers are
compared from the left, a number sorts below a word, and a proper start sorts below the longer
list.  Build metadata takes no part in the order.
-/

namespace IntentBuild

/-- An identifier of a pre-release. -/
inductive Identifier where
  /-- A number without leading zeros. -/
  | number (value : Nat)
  /-- A word of letters, digits and hyphens with at least one that is not a digit. -/
  | word (text : String)
deriving DecidableEq, Repr

/-- A semantic version. -/
structure Version where
  /-- The first number. -/
  major : Nat
  /-- The second number. -/
  minor : Nat
  /-- The third number. -/
  patch : Nat
  /-- The identifiers of the pre-release, none for a release. -/
  pre : List Identifier
  /-- The identifiers of the build metadata. -/
  build : List String
deriving DecidableEq, Repr

namespace Identifier

/-- The text of an identifier. -/
def render : Identifier → String
  | .number n => Nat.repr n
  | .word w => w

/-- The order of two identifiers. -/
def compare : Identifier → Identifier → Ordering
  | .number a, .number b => Ord.compare a b
  | .number _, .word _ => .lt
  | .word _, .number _ => .gt
  | .word a, .word b =>
      if a = b then .eq else if Text.charsLe a b then .lt else .gt

/-- A character of an identifier. -/
def isPart (c : Char) : Bool :=
  Text.isAsciiDigit c || ('a' ≤ c && c ≤ 'z') || ('A' ≤ c && c ≤ 'Z') || c == '-'

/-- The identifier of a pre-release that a row of characters spells. -/
def ofChars? (cs : List Char) : Option Identifier :=
  if cs.isEmpty || !cs.all isPart then none
  else if cs.all Text.isAsciiDigit then
    if cs.length == 1 || cs.head? != some '0' then some (.number (Text.ofAsciiDigits cs))
    else none
  else some (.word (String.ofList cs))

/-- The order of two lists of identifiers, a proper start first. -/
def compareLists : List Identifier → List Identifier → Ordering
  | [], [] => .eq
  | [], _ :: _ => .lt
  | _ :: _, [] => .gt
  | a :: as, b :: bs => (compare a b).then (compareLists as bs)

end Identifier

namespace Version

/-- The text of the pre-release, when there is one. -/
def preText? (v : Version) : Option String :=
  if v.pre.isEmpty then none else some (Text.joinWith "." (v.pre.map Identifier.render))

/-- The text of the build metadata, when there is some. -/
def buildText? (v : Version) : Option String :=
  if v.build.isEmpty then none else some (Text.joinWith "." v.build)

/-- The text of a version. -/
def render (v : Version) : String :=
  Text.joinWith "." [Nat.repr v.major, Nat.repr v.minor, Nat.repr v.patch] ++
    (match v.preText? with | some t => "-" ++ t | none => "") ++
    (match v.buildText? with | some t => "+" ++ t | none => "")

/-- A number without leading zeros at the start of the text, and the rest. -/
def number? (cs : List Char) : Option (Nat × List Char) :=
  let (ds, rest) := cs.span Text.isAsciiDigit
  if ds.isEmpty || (ds.head? == some '0' && ds.length != 1) then none
  else some (Text.ofAsciiDigits ds, rest)

/-- A point and a number, or zero without them, and the rest. -/
def pointNumber? (cs : List Char) : Option (Nat × List Char) :=
  match cs with
  | '.' :: rest => number? rest
  | _ => some (0, cs)

/-- Every text of a list as it is read by a partial function. -/
def readAll? {α : Type} (read : List Char → Option α) (parts : List (List Char)) :
    Option (List α) := parts.mapM read

/-- The identifiers after a mark, separated by points, or none when the mark does not stand
here.  The text ends before a character of the class `stop`. -/
def identifiers? {α : Type} (mark : Char) (stop : Char → Bool) (read : List Char → Option α)
    (cs : List Char) : Option (List α × List Char) :=
  match cs with
  | c :: rest =>
      if c == mark then
        let (body, after) := rest.span fun d => !stop d
        (readAll? read (Text.splitChars (· == '.') body)).map fun ids => (ids, after)
      else some ([], cs)
  | [] => some ([], [])

/-- An identifier of build metadata. -/
def buildIdentifier? (cs : List Char) : Option String :=
  if cs.isEmpty || !cs.all Identifier.isPart then none else some (String.ofList cs)

/-- The version that a text spells, with missing minor and patch parts as zero. -/
def parse? (s : String) : Option Version := do
  let (major, r1) ← number? s.toList
  let (minor, r2) ← pointNumber? r1
  let (patch, r3) ← if r1.head? == some '.' then pointNumber? r2 else some (0, r2)
  let (pre, r4) ← identifiers? '-' (· == '+') Identifier.ofChars? r3
  let (build, r5) ← identifiers? '+' (fun _ => false) buildIdentifier? r4
  if r5.isEmpty then some ⟨major, minor, patch, pre, build⟩ else none

/-- The order of two pre-releases, where a release sorts above all. -/
def comparePre (a b : List Identifier) : Ordering :=
  match a, b with
  | [], [] => .eq
  | [], _ :: _ => .gt
  | _ :: _, [] => .lt
  | _, _ => Identifier.compareLists a b

/-- The order of two versions. -/
def compare (v w : Version) : Ordering :=
  (Ord.compare v.major w.major).then
    ((Ord.compare v.minor w.minor).then
      ((Ord.compare v.patch w.patch).then (comparePre v.pre w.pre)))

/-- The first version sorts strictly above the second. -/
def above (v w : Version) : Bool := v.compare w == .gt

example : (parse? "1.2").map render = some "1.2.0" := by decide +kernel
example : (parse? "1-beta.2+b.01").map render = some "1.0.0-beta.2+b.01" := by decide +kernel
example : parse? "01.2" = none := by decide +kernel
example : parse? "1.2.3.4" = none := by decide +kernel
example : parse? "1.0.0-01" = none := by decide +kernel

end Version

end IntentBuild
