import IntentBuild.Conversation.Reply
import IntentBuild.Files.Tree
import IntentBuild.Graph.Tables
import IntentBuild.Json.Payload
import IntentBuild.Settings.Tools

/-!
# Failures

Everything that can go wrong is a `Failure`, a sum of the faults of the parts of the library.
`Failure.message` is the wording of a failure.  Three wordings depend on the system that the
library runs on, and a `Wording` gives them.
-/

namespace IntentBuild

/-- The wordings that depend on the system. -/
structure Wording where
  /-- The wording for a text that is no JSON. -/
  notJson : String := "the text is no JSON"
  /-- The wording for bytes that are no UTF-8. -/
  notUtf8 : String := "the bytes are no UTF-8"
  /-- The wording for a refusal of the file system. -/
  file : FileFault → String := FileFault.message

/-- Why the bytes of a file give no value. -/
inductive TextFault where
  /-- The bytes are no UTF-8. -/
  | notUtf8
  /-- The text is no JSON. -/
  | notJson
  /-- The JSON value of the file is no object. -/
  | notObject (path : Path)
  /-- The dependencies in the file are no object. -/
  | dependencies (path : Path)
deriving DecidableEq, Repr

/-- The wording of a fault. -/
def TextFault.message (w : Wording) : TextFault → String
  | .notUtf8 => w.notUtf8
  | .notJson => w.notJson
  | .notObject p => "Expected a JSON object in " ++ p.text
  | .dependencies p => "'dependencies' in " ++ p.text ++ " is not an object"

/-- Why a path has no place below a root. -/
inductive PathFault where
  /-- The root has no path. -/
  | noRootPath (name : String)
  /-- The path is not below the root. -/
  | outside (path root : String)
  /-- The path has an empty part or a part of points. -/
  | parts (path : String)
deriving DecidableEq, Repr

/-- The wording of a fault. -/
def PathFault.message : PathFault → String
  | .noRootPath name => "Root node " ++ Text.quoted name ++ " has no path"
  | .outside path root => "Invalid path: " ++ path ++ " is not under " ++ root
  | .parts path => "Invalid path: " ++ path

/-- Why the document of the graph cannot be read. -/
inductive DocumentFault where
  /-- The bytes are no UTF-8. -/
  | notUtf8 (path : Path)
  /-- The document is blank. -/
  | blank (path : Path)
  /-- The document is invalid. -/
  | invalid (path : Path) (fault : Invalid)
deriving DecidableEq, Repr

/-- The wording of a fault. -/
def DocumentFault.message : DocumentFault → String
  | .notUtf8 p => "Graph snapshot at " ++ p.text ++ " contains invalid UTF-8 data"
  | .blank p => "Graph snapshot at " ++ p.text ++ " is empty"
  | .invalid p v => "Graph snapshot at " ++ p.text ++ " is invalid: " ++ v.message

/-- Why a project is refused. -/
inductive ProjectFault where
  /-- The name is blank. -/
  | blankName
  /-- A project of the name has another path, or none. -/
  | elsewhere (name : String) (path : Option Path)
  /-- No project has the name. -/
  | unknown (name : String)
deriving DecidableEq, Repr

/-- The wording of a fault. -/
def ProjectFault.message : ProjectFault → String
  | .blankName => "Project name must be non-empty"
  | .elsewhere name path =>
      "Project " ++ Text.quoted name ++ " already exists at " ++
        (match path with | some p => p.text | none => "None")
  | .unknown name =>
      "Project " ++ Text.quoted name ++ " is not set up; run 'project init' first"

/-- Why an extension cannot be loaded. -/
inductive ExtensionFault where
  /-- No file is there. -/
  | noFile (path : Path)
  /-- The file is invalid. -/
  | invalid (path : Path) (fault : Invalid)
deriving DecidableEq, Repr

/-- The wording of a fault. -/
def ExtensionFault.message : ExtensionFault → String
  | .noFile p => "Extension file not found: " ++ p.text
  | .invalid p v => "Invalid extension file " ++ p.text ++ ": " ++ v.message

/-- How the file of the dependencies differs from the graph. -/
inductive DriftFault where
  /-- The file gives no object. -/
  | unreadable (path : Path) (fault : TextFault)
  /-- The file gives other dependencies. -/
  | differs (path : Path)
deriving DecidableEq, Repr

/-- The wording of a fault. -/
def DriftFault.message (w : Wording) : DriftFault → String
  | .unreadable p f => p.text ++ " is not a valid manifest: " ++ f.message w
  | .differs p => p.text ++ " does not match the project's dependency manifest"

/-- Why a stage rejects a result that fits its schema. -/
inductive StageRejection where
  /-- An intent file names an unknown project. -/
  | unknownProject (path : String) (number : Int)
  /-- The path of an intent file is not relative. -/
  | notRelative (path : String)
  /-- The path of an intent file has another ending. -/
  | otherSuffix (path : String)
  /-- A compilation gives neither a source nor an error. -/
  | nothingCompiled
  /-- A reason given from outside. -/
  | reason (text : String)
deriving DecidableEq, Repr

/-- The wording of a rejection. -/
def StageRejection.message : StageRejection → String
  | .unknownProject path n =>
      "intent file " ++ Text.quoted path ++ " references unknown projectNo " ++ Text.ofInt n
  | .notRelative path => "intent file path " ++ Text.quoted path ++ " must be relative"
  | .otherSuffix path => "intent file path " ++ Text.quoted path ++ " must end in .md"
  | .nothingCompiled => "compile result has neither targetSource nor errors"
  | .reason text => text

/-- Why an attempt gives no result. -/
inductive Rejection where
  /-- The call itself failed, with the name of the failure and its text. -/
  | raised (name text : String)
  /-- The endpoint reported a status. -/
  | status (status : String) (details : Option String)
  /-- The reply gives no result. -/
  | reply (fault : ReplyFault)
  /-- The stage rejects the result. -/
  | stage (rejection : StageRejection)
deriving DecidableEq, Repr

/-- The wording of a rejection. -/
def Rejection.message : Rejection → String
  | .raised name text => "endpoint call failed: " ++ name ++ "(" ++ Text.quoted text ++ ")"
  | .status s details =>
      let text := details.getD ""
      "endpoint returned status " ++ Text.quoted s ++ ": " ++
        (if text == "" then "no details" else text)
  | .reply f => f.message
  | .stage r => r.message

/-- Why a build ends early. -/
inductive BuildFault where
  /-- The token was cancelled, at a place given in words. -/
  | cancelled (place : String)
  /-- No attempt gave a result. -/
  | generation (label : String) (reasons : List Rejection)
  /-- A result carries errors. -/
  | diagnostics (label : String) (count : Nat)
  /-- A project has several tech stacks. -/
  | techStacks (paths : List Path)
  /-- The dependencies still change after the last plan. -/
  | restless (replans : Nat)
  /-- A stage was asked for before the build was prepared. -/
  | unprepared
  /-- The build takes more steps than it may. -/
  | steps (limit : Int)
  /-- A build may take fewer than one step. -/
  | stepLimit (value : Int)
  /-- Fewer than one unit may run at a time. -/
  | concurrency (value : Int)
deriving DecidableEq, Repr

/-- The wording of a fault. -/
def BuildFault.message : BuildFault → String
  | .cancelled place => "Build cancelled " ++ place
  | .generation label reasons =>
      label ++ ": generation failed after " ++ Nat.repr reasons.length ++
        " attempts (last failure: " ++
        (match reasons.getLast? with
          | some r => r.message
          | none => "no reason recorded") ++ ")"
  | .diagnostics label count => label ++ ": " ++ Nat.repr count ++ " error(s) reported"
  | .techStacks paths =>
      "Expected one tech-stack.md, found " ++ Nat.repr paths.length ++ ": " ++
        Text.joinWith ", " (paths.map Path.text)
  | .restless n =>
      "Dependencies still changing after " ++ Nat.repr n ++ " re-plan(s); giving up"
  | .unprepared => "Build context was not prepared before advancing the plan"
  | .steps limit =>
      "Recursion limit of " ++ Text.ofInt limit ++
        " reached without hitting a stop condition. You can increase the limit by setting the " ++
        "\x60recursion_limit\x60 config key."
  | .stepLimit _ => "recursion_limit must be at least 1"
  | .concurrency n => "max_concurrency must be >= 1, got: " ++ Text.ofInt n

/-- Why no model can be called. -/
inductive CredentialFault where
  /-- The key is missing. -/
  | noKey
  /-- The name of the model is blank. -/
  | blankModel
deriving DecidableEq, Repr

/-- The wording of a fault. -/
def CredentialFault.message : CredentialFault → String
  | .noKey => "OPENAI_API_KEY is required to call the generative endpoint"
  | .blankModel => "model_name must be a non-empty string"

/-- Why an operation failed. -/
inductive Failure where
  /-- The graph refuses the operation. -/
  | graph (fault : GraphFault)
  /-- An index of the graph lacks a key. -/
  | noKey
  /-- A value in the graph has another type than it should have. -/
  | illTyped
  /-- The parents of a node go round in a circle. -/
  | endless
  /-- A path has no place below a root. -/
  | path (fault : PathFault)
  /-- The file system refuses the operation. -/
  | file (fault : FileFault)
  /-- The bytes of a file give no value. -/
  | text (fault : TextFault)
  /-- A value has no canonical text. -/
  | payload (fault : Payload.Fault)
  /-- A value does not fit its schema. -/
  | invalid (fault : Invalid)
  /-- A reply gives no result. -/
  | reply (fault : ReplyFault)
  /-- Settings are refused. -/
  | settings (fault : SettingsFault)
  /-- A selection of models is refused. -/
  | tool (fault : ToolFault)
  /-- The document of the graph cannot be read. -/
  | document (fault : DocumentFault)
  /-- The limit of the history of a node is below one. -/
  | historyLimit (value : Int)
  /-- A project is refused. -/
  | project (fault : ProjectFault)
  /-- An extension cannot be loaded. -/
  | extension (fault : ExtensionFault)
  /-- The file of the dependencies differs from the graph. -/
  | drift (fault : DriftFault)
  /-- A build ends early. -/
  | build (fault : BuildFault)
  /-- No model can be called. -/
  | credential (fault : CredentialFault)
deriving DecidableEq, Repr

namespace Failure

/-- The wording of a failure. -/
def message (w : Wording) : Failure → String
  | .graph f => f.message
  | .noKey => "an index of the graph lacks a key"
  | .illTyped => "a value in the graph has another type than it should have"
  | .endless => "the parents of a node go round in a circle"
  | .path f => f.message
  | .file f => w.file f
  | .text f => f.message w
  | .payload f => f.message
  | .invalid f => f.message
  | .reply f => f.message
  | .settings f => f.message
  | .tool f => f.message w.notJson
  | .document f => f.message
  | .historyLimit n => "history_limit must be >= 1, got: " ++ Text.ofInt n
  | .project f => f.message
  | .extension f => f.message
  | .drift f => f.message w
  | .build f => f.message
  | .credential f => f.message

/-- The issues behind a failure, when a validation caused it. -/
def issues? : Failure → Option (List Issue)
  | .invalid v => some v.issues
  | .reply (.invalid v) => some v.issues
  | .document (.invalid _ v) => some v.issues
  | .extension (.invalid _ v) => some v.issues
  | _ => none

/-- A failure that the command line reports.  The others are faults of the graph itself. -/
def isReported : Failure → Bool
  | .noKey | .illTyped | .endless => false
  | .payload (.noForm _) => false
  | _ => true

end Failure

end IntentBuild
