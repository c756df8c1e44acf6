import IntentBuild.Assoc
import IntentBuild.Number.Binary64
import IntentBuild.Sorting

/-!
# JSON values

A JSON value keeps integers of any size apart from floating point numbers, and an object keeps
its members in the order in which their keys first appeared.  `Members` are the members of an
object, with one entry for each key.
-/

namespace IntentBuild

/-- A JSON value. -/
inductive Json where
  /-- The value `null`. -/
  | null
  /-- A truth value. -/
  | bool (value : Bool)
  /-- An integer of any size. -/
  | int (value : Int)
  /-- A floating point number. -/
  | float (value : Binary64)
  /-- A text. -/
  | str (value : String)
  /-- A list of values. -/
  | arr (items : List Json)
  /-- An object with its members in order. -/
  | obj (members : List (String × Json))
deriving Repr, Inhabited

/-- The members of a JSON object, in order. -/
abbrev Members := List (String × Json)

namespace Json

/-- The member of an object at a key. -/
def field? (k : String) : Json → Option Json
  | .obj ms => Assoc.get? k ms
  | _ => none

/-- The text of a JSON string. -/
def text? : Json → Option String
  | .str s => some s
  | _ => none

/-- The integer of a number that has no fraction, or of a truth value. -/
def int? : Json → Option Int
  | .int i => some i
  | .bool b => some (if b then 1 else 0)
  | .float x => x.toInt?
  | _ => none

/-- The members of an object. -/
def members? : Json → Option Members
  | .obj ms => some ms
  | _ => none

/-- The member of an object at a key, or `null`. -/
def get (v : Json) (k : String) : Json := (v.field? k).getD .null

/-- The value has a member at a key. -/
def hasField (v : Json) (k : String) : Bool := (v.field? k).isSome

/-- The text of a JSON string.  Any other value has the empty text. -/
def text (v : Json) : String := v.text?.getD ""

/-- The items of a list.  Any other value has none. -/
def items : Json → List Json
  | .arr vs => vs
  | _ => []

/-- The members of an object.  Any other value has none. -/
def members (v : Json) : Members := v.members?.getD []

/-- The texts of the items of a list. -/
def strings (v : Json) : List String := v.items.map text

/-- The texts of the members of an object. -/
def entries (v : Json) : List (String × String) := v.members.map fun e => (e.1, e.2.text)

/-- The value is `null`. -/
def isNull : Json → Bool
  | .null => true
  | _ => false

/-- A text, or `null` when there is none. -/
def ofText? : Option String → Json
  | some s => .str s
  | none => .null

/-- An integer, or `null` when there is none. -/
def ofInt? : Option Int → Json
  | some i => .int i
  | none => .null

/-- A list of texts. -/
def ofStrings (ss : List String) : Json := .arr (ss.map Json.str)

/-- A natural number. -/
def ofNat (n : Nat) : Json := .int n

/-- An object of texts. -/
def ofTexts (m : List (String × String)) : Json := .obj (m.map fun e => (e.1, .str e.2))

/-- The members of an object of texts, if all of them are texts. -/
def texts? : Members → Option (List (String × String))
  | [] => some []
  | (k, .str s) :: ms => (texts? ms).map ((k, s) :: ·)
  | _ => none

mutual

/-- The value with every floating point number replaced. -/
def mapFloats (f : Binary64 → Json) : Json → Json
  | .float x => f x
  | .arr items => .arr (mapFloatsItems f items)
  | .obj members => .obj (mapFloatsMembers f members)
  | v => v

/-- The items with every floating point number replaced. -/
def mapFloatsItems (f : Binary64 → Json) : List Json → List Json
  | [] => []
  | v :: vs => mapFloats f v :: mapFloatsItems f vs

/-- The members with every floating point number replaced. -/
def mapFloatsMembers (f : Binary64 → Json) : Members → Members
  | [] => []
  | (k, v) :: ms => (k, mapFloats f v) :: mapFloatsMembers f ms

end

/-- A floating point number, or `null` when it is not finite. -/
def ofFinite (x : Binary64) : Json := if x.isFinite then .float x else .null

/-- The value with every number that is not finite written as `null`. -/
def finite : Json → Json := mapFloats ofFinite

mutual

/-- The value with the members of every object in ascending order of keys. -/
def sortKeys (le : String → String → Bool) : Json → Json
  | .arr items => .arr (sortKeysItems le items)
  | .obj members =>
      .obj (Sorting.sort (fun a b => le a.1 b.1) (sortKeysMembers le members))
  | v => v

/-- The items with the members of every object in ascending order of keys. -/
def sortKeysItems (le : String → String → Bool) : List Json → List Json
  | [] => []
  | v :: vs => sortKeys le v :: sortKeysItems le vs

/-- The members with those of every object inside in ascending order of keys. -/
def sortKeysMembers (le : String → String → Bool) : Members → Members
  | [] => []
  | (k, v) :: ms => (k, sortKeys le v) :: sortKeysMembers le ms

end

end Json

end IntentBuild
