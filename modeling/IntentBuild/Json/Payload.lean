import IntentBuild.Json.Canonical
import IntentBuild.Digest.Sha256

/-!
# Payloads

What the graph keeps is made of values that have a JSON form: texts, numbers, lists, maps and
records, and values that are written as texts, such as paths and dates.  A payload may also hold
a value without a JSON form, and then it cannot be written.

The keys of a map need not be texts.  Keys of equal value are one key.  A map of numbers or truth
values is written with the texts of its keys.
-/

namespace IntentBuild

/-- A key of a map. -/
inductive PayloadKey where
  /-- A text, or a value that is written as one. -/
  | text (value : String)
  /-- No value. -/
  | none
  /-- A truth value. -/
  | bool (value : Bool)
  /-- An integer. -/
  | int (value : Int)
  /-- A floating point number. -/
  | float (value : Binary64)
deriving DecidableEq, Repr

namespace PayloadKey

/-- The number that a key equals, if any. -/
def number? : PayloadKey → Option Binary64
  | .bool b => some (.ofInt (if b then 1 else 0))
  | .int i => some (.ofInt i)
  | .float x => some x
  | _ => Option.none

/-- The two keys are one key of a map. -/
def same (a b : PayloadKey) : Bool :=
  match a, b with
  | .int i, .int j => i == j
  | _, _ =>
      match a.number?, b.number? with
      | some x, some y => x.equals y
      | _, _ => a == b

/-- The text of a key. -/
def render : PayloadKey → String
  | .text s => s
  | .none => "None"
  | .bool b => if b then "True" else "False"
  | .int i => Text.ofInt i
  | .float x => x.render .plain

end PayloadKey

/-- A value that the graph may keep. -/
inductive Payload where
  /-- A JSON value, also one that stands for a record or a text. -/
  | json (value : Json)
  /-- A list of values. -/
  | list (items : List Payload)
  /-- A map with its entries in order. -/
  | map (entries : List (PayloadKey × Payload))
  /-- A value without a JSON form, with the name of its kind. -/
  | other (kind : String)
deriving Inhabited

namespace Payload

/-- Why a payload has no canonical text. -/
inductive Fault where
  /-- A value has no JSON form. -/
  | noForm (kind : String)
  /-- A number has no canonical text. -/
  | canonical (fault : Json.CanonicalFault)
deriving DecidableEq, Repr

/-- The wording of a fault. -/
def Fault.message : Fault → String
  | .noForm kind =>
      "Cannot serialize type " ++ kind ++
        " to canonical JSON. Convert to a JSON-compatible type first."
  | .canonical f => f.message

/-- Sets a key of a map.  A key that is there already stays, and gets the value. -/
def setEntry {α : Type} (k : PayloadKey) (v : α) :
    List (PayloadKey × α) → List (PayloadKey × α)
  | [] => [(k, v)]
  | (k', v') :: rest => if k'.same k then (k', v) :: rest else (k', v') :: setEntry k v rest

/-- The map with the given entries, with one entry for each key. -/
def ofEntries (es : List (PayloadKey × Payload)) : Payload :=
  .map (es.foldl (fun m e => setEntry e.1 e.2 m) [])

mutual

/-- The JSON form of a payload. -/
def toJson : Payload → Except Fault Json
  | .json v => .ok v
  | .list items => (itemsToJson items).map Json.arr
  | .map entries => (entriesToJson entries).map fun ms => .obj (Assoc.ofEntries ms)
  | .other kind => .error (.noForm kind)

/-- The JSON forms of some items. -/
def itemsToJson : List Payload → Except Fault (List Json)
  | [] => .ok []
  | v :: vs => do
      let first ← toJson v
      let rest ← itemsToJson vs
      return first :: rest

/-- The JSON forms of some entries. -/
def entriesToJson : List (PayloadKey × Payload) → Except Fault Members
  | [] => .ok []
  | (k, v) :: es => do
      let first ← toJson v
      let rest ← entriesToJson es
      return (k.render, first) :: rest

end

/-- The canonical text of a payload. -/
def canonical (p : Payload) : Except Fault String := do
  let v ← p.toJson
  v.canonical.mapError Fault.canonical

end Payload

/-- The digest of the canonical text of a JSON value. -/
def Json.contentHash (v : Json) : Except Json.CanonicalFault String :=
  v.canonical.map Sha256.hex

end IntentBuild
