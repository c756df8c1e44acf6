import IntentBuild.Settings.EnvFile
import IntentBuild.Workspace

/-!
# Credentials

A model is called with a key, the environment variable `OPENAI_API_KEY`.  A file `.env` in the
working directory may give variables that the environment does not have.
-/

namespace IntentBuild.Credentials

/-- The name of the variable with the key. -/
def keyName : String := "OPENAI_API_KEY"

/-- The environment with the variables of a file of environment variables, if there is one. -/
def withFile (env : Environment) (file : Option String) : Environment :=
  match file with
  | some text => EnvFile.load env text
  | none => env

/-- The key in an environment. -/
def key (env : Environment) : Except CredentialFault String :=
  let k := Text.trim ((env.get? keyName).getD "")
  if k == "" then .error .noKey else .ok k

/-- A model is called by a name that is not blank, and with a key. -/
def checkModel (env : Environment) (modelName : String) : Except CredentialFault String :=
  if Text.hasInk modelName then key env else .error .blankModel

/-- The file of environment variables in the working directory. -/
def filePath : Op Path := return (← Op.files).workingDirectory.child ".env"

/-- The environment with the variables of the file in the working directory. -/
def load (env : Environment) : Op Environment := do
  let path ← filePath
  if ← Op.isFile path then return withFile env (some (← Op.readText path)) else return env

/-- Sets a variable in the file in the working directory, which is made if need be. -/
def setValue (name value : String) : Op Unit := do
  let path ← filePath
  let t ← Op.files
  let text ← if (t.entry? path).isSome then Op.readText path else pure ""
  let content := FileTree.textContent (EnvFile.setValue text name value)
  Op.setFiles (← Op.lift .file (t.place path content t.nextTick))

end IntentBuild.Credentials
