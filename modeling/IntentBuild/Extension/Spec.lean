import IntentBuild.Schema.Reading
import IntentBuild.Version.Range

/-!
# Extensions

An extension brings guidance for target languages.  Its `skills` map a target extension to a
text that goes into the prompts for files of that target.  The names of its hooks are shown and
never run.
-/

namespace IntentBuild

/-- An extension. -/
structure ExtensionSpec where
  /-- The identifier. -/
  id : String
  /-- The name for people, possibly empty. -/
  name : String
  /-- The version. -/
  version : String
  /-- The guidance for each target extension. -/
  skills : List (String × String)
  /-- The names of the hooks. -/
  hooks : List String
deriving DecidableEq, Repr

namespace ExtensionSpec

/-- Reads an extension from its members. -/
def read : Json → Reading ExtensionSpec :=
  Json.Read.record fun ms =>
    ExtensionSpec.mk <$> Json.Read.required ms "id" Json.Read.nonempty
      <*> Json.Read.withDefault ms "name" "" Json.Read.text
      <*> Json.Read.required ms "version" Json.Read.nonempty
      <*> Json.Read.withDefault2 ms "skillPrompting" "skill_prompting" []
        (Json.Read.map Json.Read.text)
      <*> Json.Read.withDefault ms "hooks" [] (Json.Read.list Json.Read.text)

/-- The members of an extension. -/
def toJson (e : ExtensionSpec) : Json :=
  .obj [("id", .str e.id), ("name", .str e.name), ("version", .str e.version),
    ("skillPrompting", .ofTexts e.skills), ("hooks", .arr (e.hooks.map Json.str))]

/-- The order of extensions by their identifiers. -/
def idLe (a b : ExtensionSpec) : Bool := Text.charsLe a.id b.id

/-- Extensions in ascending order of their identifiers. -/
def sortById (es : List ExtensionSpec) : List ExtensionSpec := Sorting.sort idLe es

/-- The name of an extension, or its identifier when the name is empty. -/
def title (e : ExtensionSpec) : String := if e.name == "" then e.id else e.name

/-- The guidance of an extension for a target, under its title. -/
def section? (target : String) (e : ExtensionSpec) : Option String :=
  (Assoc.get? target e.skills).map fun text => "### " ++ e.title ++ "\n" ++ text

/-- The guidance that extensions have for a target, in the order of their identifiers. -/
def skillText (extensions : List ExtensionSpec) (target : String) : String :=
  Text.joinWith "\n\n" ((sortById extensions).filterMap (section? target))

/-- The line of an extension in a prompt. -/
def line (e : ExtensionSpec) : String :=
  "- " ++ e.id ++ "@" ++ e.version ++ (if e.name == "" then "" else ": " ++ e.name)

/-- The extensions as lines of a prompt. -/
def lines (extensions : List ExtensionSpec) : String :=
  if extensions.isEmpty then "(no extensions installed)"
  else Text.joinWith "\n" ((sortById extensions).map line)

/-- The last extension of a list with an identifier. -/
def withId? (id : String) (extensions : List ExtensionSpec) : Option ExtensionSpec :=
  extensions.reverse.find? fun e => e.id == id

/-- A requirement that the installed extensions do not meet. -/
inductive Unmet where
  /-- No extension has the identifier. -/
  | absent (id minVersion : String)
  /-- The extension is older than required. -/
  | older (id version minVersion : String)
deriving DecidableEq, Repr

/-- The wording of an unmet requirement. -/
def Unmet.message : Unmet → String
  | .absent id v => "extension " ++ Text.quoted id ++ " (>= " ++ v ++ ") is not installed"
  | .older id have' v =>
      "extension " ++ Text.quoted id ++ " is at " ++ have' ++ ", but " ++ v ++ " is required"

/-- What a requirement lacks. -/
def unmet? (installed : List ExtensionSpec) (id minVersion : String) : Option Unmet :=
  match withId? id installed with
  | none => some (.absent id minVersion)
  | some e =>
      if Version.isHigher minVersion (some e.version) then some (.older id e.version minVersion)
      else none

/-- The requirements that installed extensions do not meet, in the order of the identifiers. -/
def missing (installed : List ExtensionSpec) (required : List (String × String)) : List Unmet :=
  (Text.sortByKey required).filterMap fun r => unmet? installed r.1 r.2

end ExtensionSpec

end IntentBuild
