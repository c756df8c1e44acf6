import IntentBuild.Json.Printer

/-!
# Canonical JSON

The canonical text of a JSON value has no blanks, object members in the order of the UTF-16
units of their keys, the shortest escapes, and numbers in the interchange style.  Equal values
have the same canonical text.  A number has a canonical text only if every reader of the format
takes it for the same number: integers stay within `2^53 - 1` on either side of zero, and
floating point numbers are finite.
-/

namespace IntentBuild.Json

/-- Why a value has no canonical text. -/
inductive CanonicalFault where
  /-- An integer is too large in size. -/
  | integer (value : Int)
  /-- A floating point number is not finite. -/
  | notFinite (value : Binary64)
deriving Repr, DecidableEq

/-- The largest integer of the canonical form. -/
def maxSafe : Int := 9007199254740991

/-- The wording of a fault. -/
def CanonicalFault.message : CanonicalFault → String
  | .integer i => Text.ofInt i ++ " exceeds safe integer domain for JSON floats"
  | .notFinite x => x.render .plain ++ " is not representable in JCS"

mutual

/-- The canonical text of a value whose objects have their members in canonical order. -/
def writeCanonical : Json → Except CanonicalFault (List Char)
  | .null => .ok "null".toList
  | .bool b => .ok (if b then "true".toList else "false".toList)
  | .int i =>
      if -maxSafe ≤ i && i ≤ maxSafe then .ok (Text.ofInt i).toList else .error (.integer i)
  | .float x =>
      if x.isFinite then .ok (x.render .interchange).toList else .error (.notFinite x)
  | .str s => .ok (stringText false s)
  | .arr [] => .ok ['[', ']']
  | .arr (v :: vs) => do
      let first ← writeCanonical v
      let rest ← writeCanonicalItems vs
      return '[' :: (first ++ (rest ++ [']']))
  | .obj [] => .ok ['{', '}']
  | .obj ((k, v) :: ms) => do
      let first ← writeCanonical v
      let rest ← writeCanonicalMembers ms
      return '{' :: (stringText false k ++ (':' :: (first ++ (rest ++ ['}']))))

/-- The canonical text of the items after the first. -/
def writeCanonicalItems : List Json → Except CanonicalFault (List Char)
  | [] => .ok []
  | v :: vs => do
      let first ← writeCanonical v
      let rest ← writeCanonicalItems vs
      return ',' :: (first ++ rest)

/-- The canonical text of the members after the first. -/
def writeCanonicalMembers : Members → Except CanonicalFault (List Char)
  | [] => .ok []
  | (k, v) :: ms => do
      let first ← writeCanonical v
      let rest ← writeCanonicalMembers ms
      return ',' :: (stringText false k ++ (':' :: (first ++ rest)))

end

/-- The canonical text of a value. -/
def canonical (v : Json) : Except CanonicalFault String :=
  (writeCanonical (v.sortKeys Text.utf16Le)).map String.ofList

end IntentBuild.Json
