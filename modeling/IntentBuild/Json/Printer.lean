import IntentBuild.Json.Basic
import IntentBuild.Number.FloatText
import IntentBuild.Text.Hex
import IntentBuild.Text.Utf16

/-!
# Writing JSON

A JSON value is written on one line, or with every item on a line of its own, indented by two
blanks for each level.  A `Layout` says which, and whether characters outside printable ASCII
are escaped.  Empty lists and objects are written as `[]` and `{}`.
-/

namespace IntentBuild.Json

/-- The details of writing JSON. -/
structure Layout where
  /-- Every item stands on a line of its own. -/
  lines : Bool
  /-- Characters outside printable ASCII are escaped. -/
  ascii : Bool

/-- One line, ASCII only. -/
def Layout.line : Layout := ⟨false, true⟩

/-- A line for each item, ASCII only. -/
def Layout.pretty : Layout := ⟨true, true⟩

/-- A line for each item, with characters of all scripts. -/
def Layout.document : Layout := ⟨true, false⟩

/-- The escape of a UTF-16 unit. -/
def unitEscape (n : Nat) : List Char := '\\' :: 'u' :: Text.hexDigits 4 n

/-- A character as it stands in a string. -/
def stringChar (ascii : Bool) (c : Char) : List Char :=
  if c == '"' then ['\\', '"']
  else if c == '\\' then ['\\', '\\']
  else if c == '\n' then ['\\', 'n']
  else if c == '\r' then ['\\', 'r']
  else if c == '\t' then ['\\', 't']
  else if c == '\x08' then ['\\', 'b']
  else if c == '\x0c' then ['\\', 'f']
  else if c.toNat < 0x20 then unitEscape c.toNat
  else if ascii && 0x7E < c.toNat then (Text.utf16Units c).flatMap unitEscape
  else [c]

/-- A text as a JSON string. -/
def stringText (ascii : Bool) (s : String) : List Char :=
  '"' :: (s.toList.flatMap (stringChar ascii) ++ ['"'])

/-- A floating point number.  What is not a number and the infinities have names. -/
def floatText : Binary64 → List Char
  | .nan => "NaN".toList
  | .infinite negative => if negative then "-Infinity".toList else "Infinity".toList
  | x => (x.render .plain).toList

/-- The text between two items, and before the first one, at a level. -/
def lineBreak (layout : Layout) (level : Nat) : List Char :=
  if layout.lines then '\n' :: List.replicate (2 * level) ' ' else []

/-- The text after an item that is not the last. -/
def separator (layout : Layout) (level : Nat) : List Char :=
  if layout.lines then ',' :: lineBreak layout level else [',', ' ']

mutual

/-- The text of a value that stands at a level. -/
def write (layout : Layout) (level : Nat) : Json → List Char
  | .null => "null".toList
  | .bool b => if b then "true".toList else "false".toList
  | .int i => (Text.ofInt i).toList
  | .float x => floatText x
  | .str s => stringText layout.ascii s
  | .arr [] => ['[', ']']
  | .arr (v :: vs) =>
      '[' :: (lineBreak layout (level + 1) ++ (write layout (level + 1) v ++
        (writeItems layout (level + 1) vs ++ (lineBreak layout level ++ [']']))))
  | .obj [] => ['{', '}']
  | .obj ((k, v) :: ms) =>
      '{' :: (lineBreak layout (level + 1) ++ (stringText layout.ascii k ++ (':' :: ' ' ::
        (write layout (level + 1) v ++ (writeMembers layout (level + 1) ms ++
          (lineBreak layout level ++ ['}']))))))

/-- The text of the items after the first. -/
def writeItems (layout : Layout) (level : Nat) : List Json → List Char
  | [] => []
  | v :: vs =>
      separator layout level ++ (write layout level v ++ writeItems layout level vs)

/-- The text of the members after the first. -/
def writeMembers (layout : Layout) (level : Nat) : Members → List Char
  | [] => []
  | (k, v) :: ms =>
      separator layout level ++ (stringText layout.ascii k ++ (':' :: ' ' ::
        (write layout level v ++ writeMembers layout level ms)))

end

/-- The text of a value. -/
def render (layout : Layout) (v : Json) : String := String.ofList (write layout 0 v)

end IntentBuild.Json
