import IntentBuild.Schema.Reading

/-!
# Diagnostics

A generated result carries diagnostics: warnings, and errors that fail the unit of work.  A
diagnostic is a text with an optional line and an optional range of columns.
-/

namespace IntentBuild

/-- A warning or an error about an input. -/
structure Diagnostic where
  /-- What is wrong. -/
  text : String
  /-- The line. -/
  line : Option Int
  /-- The first column. -/
  first : Option Int
  /-- The last column. -/
  last : Option Int
deriving DecidableEq, Repr

namespace Diagnostic

/-- Reads a diagnostic from its members. -/
def read : Json → Reading Diagnostic :=
  Json.Read.record fun ms =>
    Diagnostic.mk <$> Json.Read.required ms "text" Json.Read.text
      <*> Json.Read.optionalField ms "line" Json.Read.integer
      <*> Json.Read.optionalField2 ms "from" "from_" Json.Read.integer
      <*> Json.Read.optionalField ms "to" Json.Read.integer

/-- The members of a diagnostic. -/
def toJson (d : Diagnostic) : Json :=
  .obj [("text", .str d.text), ("line", .ofInt? d.line), ("from", .ofInt? d.first),
    ("to", .ofInt? d.last)]

/-- A column, or a question mark. -/
def columnText : Option Int → String
  | some i => Text.ofInt i
  | none => "?"

/-- The position of a diagnostic, as it stands before its text.  Columns count only with a
line. -/
def position (d : Diagnostic) : String :=
  match d.line with
  | none => ""
  | some line =>
      let range :=
        if d.first.isSome || d.last.isSome then
          " (" ++ columnText d.first ++ "-" ++ columnText d.last ++ ")"
        else ""
      "line " ++ Text.ofInt line ++ range ++ ": "

/-- The diagnostic as a line of text. -/
def render (d : Diagnostic) : String := d.position ++ d.text

end Diagnostic

/-- The diagnostics of a result. -/
structure Diagnostics where
  /-- What does not stop the unit of work. -/
  warnings : List Diagnostic
  /-- What fails the unit of work. -/
  errors : List Diagnostic
deriving DecidableEq, Repr

namespace Diagnostics

/-- Reads the diagnostics from the members of a result. -/
def readFrom (ms : Members) : Reading Diagnostics :=
  Diagnostics.mk <$> Json.Read.withDefault ms "warnings" [] (Json.Read.list Diagnostic.read)
    <*> Json.Read.withDefault ms "errors" [] (Json.Read.list Diagnostic.read)

/-- The members of the diagnostics. -/
def toMembers (d : Diagnostics) : Members :=
  [("warnings", .arr (d.warnings.map Diagnostic.toJson)),
    ("errors", .arr (d.errors.map Diagnostic.toJson))]

end Diagnostics

end IntentBuild
