import IntentBuild.Failure

/-!
# Notices

A notice tells the user about something that went wrong and did not stop the operation, or about
the reason why it stopped.  Notices are gathered in order while an operation runs.
-/

namespace IntentBuild

/-- How much a notice weighs. -/
inductive Level where
  /-- Worth a look. -/
  | warning
  /-- Something failed. -/
  | error
deriving DecidableEq, Repr

/-- Something that the user should know. -/
inductive Notice where
  /-- An attempt for a unit gave no result. -/
  | attemptFailed (label : String) (attempt : Nat) (budget : Nat) (reason : Rejection)
  /-- No attempt for a unit gave a result. -/
  | givingUp (label : String) (budget : Nat)
  /-- A result carries a warning. -/
  | warned (label : String) (diagnostic : Diagnostic)
  /-- A result carries an error. -/
  | failed (label : String) (diagnostic : Diagnostic)
  /-- The tech stack asks for an extension that is not there. -/
  | unmet (requirement : ExtensionSpec.Unmet)
  /-- An intent file has no target. -/
  | noTarget (path : String)
  /-- A record has the digest of a prompt and another text. -/
  | otherPrompt (node tool : String)
  /-- The file of the dependencies differs from the graph. -/
  | drift (path : Path) (expected : List (String × String)) (found : Members)
  /-- A command failed. -/
  | commandFailed (command : String) (failure : Failure)
  /-- An extension to be removed is not installed. -/
  | notInstalled (extension project : String)
  /-- The credentials are not in order. -/
  | credential (fault : CredentialFault)
deriving Repr

namespace Notice

/-- How much a notice weighs. -/
def level : Notice → Level
  | .attemptFailed .. | .warned .. | .unmet _ | .noTarget _ | .otherPrompt .. => .warning
  | _ => .error

/-- The wording of a notice. -/
def message (w : Wording) : Notice → String
  | .attemptFailed label n budget reason =>
      label ++ ": attempt " ++ Nat.repr n ++ "/" ++ Nat.repr budget ++ " failed: " ++
        reason.message
  | .givingUp label budget => label ++ ": giving up after " ++ Nat.repr budget ++ " attempts"
  | .warned label d => label ++ ": " ++ d.render
  | .failed label d => label ++ ": " ++ d.render
  | .unmet u => "Tech stack: " ++ u.message
  | .noTarget path => "Skipping " ++ path ++ ": no target extension in the file name"
  | .otherPrompt node tool =>
      "Cache record for " ++ Text.quoted node ++ " (" ++ tool ++
        ") matched by hash but not by prompt text"
  | .drift path expected found =>
      "Manifest drift: graph has " ++ (Json.ofTexts expected).render .line ++ ", " ++ path.text ++
        " has " ++ (Json.obj found).render .line
  | .commandFailed command f => command ++ " failed: " ++ f.message w
  | .notInstalled extension project =>
      "Extension " ++ Text.quoted extension ++ " is not installed in " ++ Text.quoted project
  | .credential f => f.message

end Notice

end IntentBuild
