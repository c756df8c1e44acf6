import IntentBuild.Json.Basic
import IntentBuild.Text.IntegerLiteral
import IntentBuild.Text.Quoted
import IntentBuild.Text.Search
import IntentBuild.Time.Stamp

/-!
# Reading values from JSON

A schema says which JSON values make a value of some type.  Reading a value against a schema
gives the value or the list of all issues, each with its place.  `Reading` gathers the issues of
independent parts in order: `f <$> x <*> y` has the issues of `x` followed by those of `y`.

The readers are lenient where documents vary.  An integer may be written as an integral
floating point number, a truth value or a text.  A field may be given under either of two keys,
of which the first wins and names the place of its issues.
-/

namespace IntentBuild

/-- A step from a value to a part of it. -/
inductive Step where
  /-- The member at a key. -/
  | key (name : String)
  /-- The item at a position. -/
  | item (position : Nat)
deriving DecidableEq, Repr

/-- What is wrong with a value. -/
inductive IssueKind where
  /-- A required member is absent. -/
  | missing
  /-- The value is no integer. -/
  | notInteger
  /-- The text spells no integer. -/
  | integerText
  /-- The number is too large for an integer. -/
  | integerSize
  /-- The number has a fraction. -/
  | fractional
  /-- The number is not finite. -/
  | notFinite
  /-- The value is no text. -/
  | notText
  /-- The text is too short. -/
  | tooShort
  /-- The value is none of the words of an enumeration. -/
  | notListed
  /-- The value is no list. -/
  | notList
  /-- The value is no object of values. -/
  | notMap
  /-- The value is no object of members. -/
  | notRecord
  /-- The document is no JSON. -/
  | notJson
  /-- The text spells no date. -/
  | dateText
  /-- The value is no date. -/
  | notDate
  /-- A rule of the schema is broken, with its wording. -/
  | rule (text : String)
deriving DecidableEq, Repr

/-- An issue with the place of the value that has it. -/
structure Issue where
  /-- The steps from the whole value to the part with the issue. -/
  place : List Step
  /-- What is wrong there. -/
  kind : IssueKind
deriving DecidableEq, Repr

/-- The wording of an issue. -/
def IssueKind.message : IssueKind → String
  | .missing => "Field required"
  | .notInteger => "Input should be a valid integer"
  | .integerText => "Input should be a valid integer, unable to parse string as an integer"
  | .integerSize => "Unable to parse input string as an integer, exceeded maximum size"
  | .fractional => "Input should be a valid integer, got a number with a fractional part"
  | .notFinite => "Input should be a finite number"
  | .notText => "Input should be a valid string"
  | .tooShort => "String should have at least 1 character"
  | .notListed => "Input should be one of the listed values"
  | .notList => "Input should be a valid list"
  | .notMap => "Input should be a valid dictionary"
  | .notRecord => "Input should be a valid object"
  | .notJson => "Invalid JSON"
  | .dateText => "Input should be a valid datetime or date"
  | .notDate => "Input should be a valid datetime"
  | .rule text => "Value error, " ++ text

/-- The name of a kind of issue in reports for machines. -/
def IssueKind.code : IssueKind → String
  | .missing => "missing"
  | .notInteger => "int_type"
  | .integerText => "int_parsing"
  | .integerSize => "int_parsing_size"
  | .fractional => "int_from_float"
  | .notFinite => "finite_number"
  | .notText => "string_type"
  | .tooShort => "string_too_short"
  | .notListed => "enum"
  | .notList => "list_type"
  | .notMap => "dict_type"
  | .notRecord => "model_type"
  | .notJson => "json_invalid"
  | .dateText => "datetime_from_date_parsing"
  | .notDate => "datetime_type"
  | .rule _ => "value_error"

/-- The report of an issue for machines.  Only a broken rule has its wording there. -/
def Issue.toJson (i : Issue) : Json :=
  let place := i.place.map fun s => match s with | .key k => Json.str k | .item n => .ofNat n
  let wording := match i.kind with
    | .rule _ => [("msg", Json.str i.kind.message)]
    | _ => []
  .obj ([("loc", .arr place), ("type", .str i.kind.code)] ++ wording)

/-- The text of a step. -/
def Step.text : Step → String
  | .key name => name
  | .item n => Nat.repr n

/-- A value together with the issues of reading it. -/
inductive Reading (α : Type) where
  /-- The value. -/
  | ok (value : α)
  /-- The issues, in order. -/
  | bad (issues : List Issue)
deriving Repr

namespace Reading

variable {α β : Type}

/-- Applies a function to a value that was read. -/
def map (f : α → β) : Reading α → Reading β
  | .ok a => .ok (f a)
  | .bad is => .bad is

/-- Applies a function that was read to a value that was read.  The issues of both are kept. -/
def app (f : Reading (α → β)) (x : Reading α) : Reading β :=
  match f, x with
  | .ok f, .ok a => .ok (f a)
  | .ok _, .bad js => .bad js
  | .bad is, .ok _ => .bad is
  | .bad is, .bad js => .bad (is ++ js)

instance : Applicative Reading where
  pure := .ok
  map := map
  seq f x := app f (x ())

/-- Reads on with a value that was read. -/
def andThen (x : Reading α) (f : α → Reading β) : Reading β :=
  match x with
  | .ok a => f a
  | .bad is => .bad is

/-- A single issue at this place. -/
def issue (kind : IssueKind) : Reading α := .bad [⟨[], kind⟩]

/-- The issues seen from the whole of which this is the part after a step. -/
def under (step : Step) : Reading α → Reading α
  | .ok a => .ok a
  | .bad is => .bad (is.map fun i => { i with place := step :: i.place })

/-- A rule that a value has to keep. -/
def rule (holds : Bool) (text : String) (a : α) : Reading α :=
  if holds then .ok a else issue (.rule text)

end Reading

/-- A validation that failed. -/
structure Invalid where
  /-- The name of the schema. -/
  schema : String
  /-- The issues, at least one. -/
  issues : List Issue
deriving DecidableEq, Repr

namespace Invalid

/-- The count of issues, in words. -/
def summary (v : Invalid) : String :=
  Nat.repr v.issues.length ++ " validation error" ++ (if v.issues.length == 1 then "" else "s") ++
    " for " ++ v.schema

/-- The wording: a line with the count, and a line for each issue. -/
def message (v : Invalid) : String :=
  Text.joinWith "\n" (v.summary :: v.issues.map fun i =>
    Text.joinWith "." (i.place.map Step.text) ++ ": " ++ i.kind.message)

end Invalid

namespace Reading

/-- The result of validating against a named schema. -/
def validated {α : Type} (schema : String) : Reading α → Except Invalid α
  | .ok a => .ok a
  | .bad is => .error ⟨schema, is⟩

end Reading

namespace Json.Read

variable {α : Type}

/-- A text. -/
def text : Json → Reading String
  | .str s => .ok s
  | _ => Reading.issue .notText

/-- A text with at least one character. -/
def nonempty (v : Json) : Reading String :=
  (text v).andThen fun s => if s == "" then Reading.issue .tooShort else .ok s

/-- The integer fits in 64 bits, with room for its opposite. -/
def isSmall (i : Int) : Bool := -9223372036854775808 < i && i < 9223372036854775808

/-- An integer, also as an integral floating point number, a truth value or a text. -/
def integer : Json → Reading Int
  | .int i => .ok i
  | .bool b => .ok (if b then 1 else 0)
  | .float x =>
      if !x.isFinite then Reading.issue .notFinite
      else match x.toInt? with
        | some i => if isSmall i then .ok i else Reading.issue .integerSize
        | none => Reading.issue .fractional
  | .str s =>
      match Text.readLooseInteger? s with
      | some i => .ok i
      | none => Reading.issue .integerText
  | _ => Reading.issue .notInteger

/-- A value, or nothing for `null`. -/
def optional (read : Json → Reading α) : Json → Reading (Option α)
  | .null => .ok none
  | v => some <$> read v

/-- Reads the items of a list from a position on. -/
def itemsFrom (read : Json → Reading α) : Nat → List Json → Reading (List α)
  | _, [] => .ok []
  | n, v :: vs => List.cons <$> (read v).under (.item n) <*> itemsFrom read (n + 1) vs

/-- A list of values. -/
def list (read : Json → Reading α) : Json → Reading (List α)
  | .arr vs => itemsFrom read 0 vs
  | _ => Reading.issue .notList

/-- Reads the values of some members. -/
def entries (read : Json → Reading α) : Members → Reading (List (String × α))
  | [] => .ok []
  | (k, v) :: ms =>
      List.cons <$> ((read v).under (.key k)).map (fun a => (k, a)) <*> entries read ms

/-- An object of values of one kind. -/
def map (read : Json → Reading α) : Json → Reading (List (String × α))
  | .obj ms => entries read ms
  | _ => Reading.issue .notMap

/-- An object of any values. -/
def anyMap : Json → Reading Members
  | .obj ms => .ok ms
  | _ => Reading.issue .notMap

/-- A word of an enumeration. -/
def word (ofText? : String → Option α) : Json → Reading α
  | .str s =>
      match ofText? s with
      | some a => .ok a
      | none => Reading.issue .notListed
  | _ => Reading.issue .notListed

/-- A date with a time, also as a count of seconds. -/
def stamp : Json → Reading Stamp
  | .str s =>
      match (Stamp.parse? s).or (Stamp.parseCount? s) with
      | some t => .ok t
      | none => Reading.issue .dateText
  | .int i => .ok (Stamp.ofCount (i * Stamp.perSecond))
  | .float x =>
      match Stamp.ofFloat? x with
      | some t => .ok t
      | none => Reading.issue .dateText
  | _ => Reading.issue .notDate

/-- The members of a record. -/
def record (read : Members → Reading α) : Json → Reading α
  | .obj ms => read ms
  | _ => Reading.issue .notRecord

/-- The value of a field that may be given under two keys, of which the first wins. -/
def fieldValue? (ms : Members) (key other : String) : Option Json :=
  match Assoc.get? key ms with
  | some v => some v
  | none => Assoc.get? other ms

/-- A required field with two keys. -/
def required2 (ms : Members) (key other : String) (read : Json → Reading α) : Reading α :=
  match fieldValue? ms key other with
  | some v => (read v).under (.key key)
  | none => (Reading.issue .missing).under (.key key)

/-- A required field. -/
def required (ms : Members) (key : String) (read : Json → Reading α) : Reading α :=
  required2 ms key key read

/-- A field with two keys and a default. -/
def withDefault2 (ms : Members) (key other : String) (default : α) (read : Json → Reading α) :
    Reading α :=
  match fieldValue? ms key other with
  | some v => (read v).under (.key key)
  | none => .ok default

/-- A field with a default. -/
def withDefault (ms : Members) (key : String) (default : α) (read : Json → Reading α) :
    Reading α :=
  withDefault2 ms key key default read

/-- A field that may be absent or `null`. -/
def optionalField (ms : Members) (key : String) (read : Json → Reading α) :
    Reading (Option α) :=
  withDefault ms key none (optional read)

/-- A field with two keys that may be absent or `null`. -/
def optionalField2 (ms : Members) (key other : String) (read : Json → Reading α) :
    Reading (Option α) :=
  withDefault2 ms key other none (optional read)

end Json.Read

end IntentBuild
