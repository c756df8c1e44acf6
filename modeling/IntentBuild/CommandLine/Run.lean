import IntentBuild.Build.Run
import IntentBuild.CommandLine.Arguments
import IntentBuild.Settings.Credentials

/-!
# Running commands

A command runs on a workspace and gives an exit code and lines of output.  A failure that comes
from the input, the files or the build is reported as a notice, with the exit code one.
-/

namespace IntentBuild.CommandLine

/-- What a command line gives. -/
structure Exit where
  /-- The exit code. -/
  code : Nat
  /-- The lines of output. -/
  lines : List String := []
  /-- The arguments gave no command. -/
  refused : Bool := false
deriving DecidableEq, Repr

/-- Texts in columns. -/
def columns (ts : List String) : String := Text.joinWith "\t" ts

/-- The text, or a dash when it is empty. -/
def orDash (s : String) : String := if s == "" then "-" else s

/-- The text of a path that may be absent. -/
def pathText : Option Path → String
  | some p => p.text
  | none => "None"

/-- The line of a project. -/
def projectLine (n : Node) : Op String :=
  return columns [n.name, pathText (← Graph.path? n)]

/-- The line of an extension. -/
def extensionLine (e : ExtensionSpec) : String :=
  columns [e.id, e.version, e.name, orDash (Text.joinWith "," e.hooks)]

/-- The line of a finished build. -/
def summaryLine (s : BuildSummary) : String :=
  Text.joinWith " "
    ["build=" ++ s.project, "stages=" ++ Nat.repr s.stagesRun, "replans=" ++ Nat.repr s.replans,
      "units=" ++ Nat.repr s.units, "cache_hits=" ++ Nat.repr s.cacheHits,
      "generated=" ++ Nat.repr s.generated]

/-- Runs a command on the graph. -/
def runOnGraph (services : Services) : Command → Op Exit
  | .projectInit name path => do
      let p ← Project.setup name (Path.ofText path)
      return ⟨0, [columns [p.node.name, (← Graph.pathOf p.node).text]], false⟩
  | .projectList => do
      return ⟨0, ← (← Project.list).mapM projectLine, false⟩
  | .build name => do
      let s ← Build.launch false services name Plan.default
      return ⟨0, [summaryLine s], false⟩
  | .verify name => do
      DepsFile.verify (← Project.require name).node
      return ⟨0, ["manifest ok"], false⟩
  | .extensionsLoad name file => do
      let project ← Project.require name
      let e ← Registry.load (Path.ofText file)
      let _ ← Registry.install project.node e
      return ⟨0, [columns [e.id, e.version]], false⟩
  | .extensionsList name => do
      let project ← Project.require name
      return ⟨0, (← Registry.installed project.node).map extensionLine, false⟩
  | .extensionsRemove name extension => do
      let project ← Project.require name
      if ← Registry.remove project.node extension then return ⟨0, [], false⟩
      else
        Op.notify (.notInstalled extension name)
        return ⟨1, [], false⟩
  | _ => return ⟨0, [], false⟩

/-- A build needs a key, and may find it and other variables in a file. -/
def environmentFor (env : Environment) : Command → Op Environment
  | .build _ => do
      let env ← Credentials.load env
      let _ ← Op.lift .credential (Credentials.key env)
      return env
  | _ => return env

/-- Opens the graph that the settings name, and runs a command on it. -/
def runWithSettings (env : Environment) (endpoint : Endpoint) (c : Command) : Op Exit := do
  let settings ← Op.lift .settings (Settings.ofEnvironment env)
  let env ← environmentFor env c
  let root := settings.storePath (← Op.files).workingDirectory
  Op.openGraph root settings.instanceId
  let tools ← Op.lift .tool (ToolSelection.ofEnvironment env settings)
  runOnGraph { settings, tools, endpoint } c

/-- Looks for the key of the models. -/
def checkCredentials (env : Environment) : Op Exit := do
  match Credentials.key (← Credentials.load env) with
  | .ok _ => return ⟨0, ["OPENAI_API_KEY is set"], false⟩
  | .error f =>
      Op.notify (.credential f)
      return ⟨1, [], false⟩

/-- Runs a command. -/
def runCommand (env : Environment) (endpoint : Endpoint) (c : Command) : Op Exit :=
  match c with
  | .credentialsCheck => checkCredentials env
  | .credentialsSet name value => do
      Credentials.setValue name value
      return ⟨0, [name ++ " written to " ++ (← Credentials.filePath).text], false⟩
  | c =>
      tryCatch (runWithSettings env endpoint c) fun e => do
        if e.isReported then
          Op.notify (.commandFailed c.word e)
          return ⟨1, [], false⟩
        else throw e

/-- The environment variables that commands read. -/
def variableNames : List String :=
  Settings.variableNames ++ ToolSelection.variableNames ++ [Credentials.keyName]

/-- The path that a command names, if it names one. -/
def Command.place? : Command → Option Path
  | .projectInit _ path => some (Path.ofText path)
  | .extensionsLoad _ file => some (Path.ofText file)
  | _ => none

/-- The path that a command line names, if it names one. -/
def namedPlace? (args : List String) : Option Path :=
  match parse args with
  | .ok c => c.place?
  | .error _ => none

/-- The directory of the store, seen from a working directory. -/
def storePlace? (env : Environment) (workingDirectory : Path) : Option Path :=
  match Settings.ofEnvironment env with
  | .ok settings => some (settings.storePath workingDirectory)
  | .error _ => none

/-- The paths of the projects in the store. -/
def projectPlaces (env : Environment) : Op (List Path) := do
  let settings ← Op.lift .settings (Settings.ofEnvironment env)
  Op.openGraph (settings.storePath (← Op.files).workingDirectory) settings.instanceId
  let paths ← (← Project.list).mapM Graph.path?
  return paths.filterMap fun p => p

/-- Runs a command line. -/
def run (env : Environment) (endpoint : Endpoint) (args : List String) : Op Exit :=
  match parse args with
  | .error r => return ⟨r.code, [], true⟩
  | .ok c => runCommand env endpoint c

end IntentBuild.CommandLine
