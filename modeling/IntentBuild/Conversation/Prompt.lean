import IntentBuild.Extension.Spec
import IntentBuild.Json.Printer

/-!
# Prompts

Each tool has a prompt, a text with a section for every input.  The text of a prompt is what
records of earlier replies are found by, so the same inputs always give the same text.  Objects
are written with sorted keys, and extensions and dependencies stand in the order of their names.
-/

namespace IntentBuild.Prompt

/-- The role of the tech stack tool. -/
def techStackRole : String :=
  "You are a software architect. You read a project's tech-stack specification and " ++
  "resolve it into the extensions and external library dependencies the project needs. " ++
  "Reply with a single JSON object only."

/-- The role of the lowering tool. -/
def loweringRole : String :=
  "You translate natural-language specifications into IntentCode: concise, structured " ++
  "pseudo-code with one file per source file, named <name>.<target extension>.md. " ++
  "Reply with a single JSON object only."

/-- The role of the indexing tool. -/
def indexerRole : String :=
  "You index IntentCode files. You extract an abstract syntax tree of the declared " ++
  "types, functions, their parameters and return types, and what each file imports. " ++
  "Reply with a single JSON object only."

/-- The role of the compiling tool. -/
def compilerRole : String :=
  "You compile IntentCode into production source code in the target language. " ++
  "You only use the dependencies you declare. Reply with a single JSON object only."

/-- The diagnostics in the description of a reply. -/
def diagnosticsForm : String :=
  "\"warnings\": [\x7b\"text\": \"...\", \"line\": 1, \"from\": 0, \"to\": 5\x7d], \"errors\": []"

/-- Lines joined to a text. -/
def ofLines (ls : List String) : String := Text.joinWith "\n" ls

/-- A JSON value with a line for each item and sorted keys. -/
def jsonBlock (v : Json) : String := (v.sortKeys Text.charsLe).render .pretty

/-- The text, or another one when it is empty. -/
def orElse (s other : String) : String := if s == "" then other else s

/-- The prompt that resolves a tech stack. -/
def techStack (specText : String) (extensions : List ExtensionSpec) : String :=
  ofLines
    ["## Task",
      "Resolve the tech stack described below.",
      "",
      "## Installed extensions",
      ExtensionSpec.lines extensions,
      "",
      "## Output format",
      "\x7b" ++ diagnosticsForm ++
        ", \"extensions\": \x7b\"<extension id>\": \"<min version>\"\x7d, " ++
        "\"dependencyDeltas\": \x7b\"<library name>\": \"<min version>\"\x7d\x7d",
      "Report problems with the specification as warnings or errors.",
      "",
      "## Tech stack specification",
      specText]

/-- The line of a project. -/
def projectLine (p : Int × String) : String := "- projectNo " ++ Text.ofInt p.1 ++ ": " ++ p.2

/-- The prompt that lowers a specification to intent files. -/
def lowering (specPath specText : String) (projects : List (Int × String))
    (techStack : Option Members) (extensions : List ExtensionSpec) : String :=
  ofLines
    (["## Task",
      "Write the IntentCode files that implement the specification below.",
      "",
      "## Projects"] ++
    (Sorting.sort (fun a b => a.1 ≤ b.1) projects).map projectLine ++
    ["",
      "## Tech stack",
      (match techStack with
        | some ms => jsonBlock (.obj ms)
        | none => "(not resolved)"),
      "",
      "## Installed extensions",
      ExtensionSpec.lines extensions,
      "",
      "## Output format",
      "\x7b" ++ diagnosticsForm ++ ", \"intentFiles\": [\x7b\"projectNo\": 1, " ++
        "\"relativePath\": \"<dir>/<name>.<target ext>.md\", \"fileDelta\": \"set\", " ++
        "\"content\": \"...\"\x7d]\x7d",
      "Use \"fileDelta\": \"delete\" (without content) to remove an IntentCode file.",
      "",
      "## Spec file: " ++ specPath,
      specText])

/-- The prompt that indexes an intent file. -/
def index (intentPath target intentText skillText : String) : String :=
  ofLines
    ["## Task",
      "Index the IntentCode file below.",
      "",
      "## Target language: " ++ target,
      orElse skillText "(no target language guidance)",
      "",
      "## Output format",
      "\x7b" ++ diagnosticsForm ++
        ", \"astTree\": \x7b\"imports\": [], \"types\": [], \"functions\": []\x7d\x7d",
      "",
      "## Intent file: " ++ intentPath,
      intentText]

/-- The lines of the dependencies. -/
def dependencyLines (deps : List (String × String)) : List String :=
  if deps.isEmpty then ["(none yet)"]
  else (Text.sortByKey deps).map fun d => "- " ++ d.1 ++ ": " ++ d.2

/-- The prompt that compiles an intent file. -/
def compile (intentPath target intentText : String) (indexed : Members)
    (deps : List (String × String)) (skillText : String) (extensions : List ExtensionSpec) :
    String :=
  ofLines
    (["## Task",
      "Compile the IntentCode file below into source code.",
      "",
      "## Target language: " ++ target,
      orElse skillText "(no target language guidance)",
      "",
      "## Installed extensions",
      ExtensionSpec.lines extensions,
      "",
      "## Project dependencies"] ++
    dependencyLines deps ++
    ["Declare any library the source needs as a dependency delta; remove ones it no longer uses.",
      "",
      "## Index of all IntentCode files",
      jsonBlock (.obj indexed),
      "",
      "## Output format",
      "\x7b\"assumptions\": [\x7b\"text\": \"...\", \"level\": \"low\"\x7d], " ++ diagnosticsForm ++
        ", \"fixedIntentNotation\": null, \"targetSource\": \"...\", " ++
        "\"dependencyDeltas\": [\x7b\"operation\": \"add\", \"name\": \"...\", " ++
        "\"minVersion\": \"1.0.0\"\x7d]\x7d",
      "Set fixedIntentNotation only when the IntentCode needs a correction.",
      "",
      "## Intent file: " ++ intentPath,
      intentText])

end IntentBuild.Prompt
