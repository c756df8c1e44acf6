import IntentBuild.CommandLine.Run
import IntentBuild.Files.Change

/-!
# The command line program

Loads the files that a command may reach into a file tree, runs the command on it, and brings the
disk up to date.  Output goes to the standard output, notices to the standard error.  No transport
to a model is configured, so a build ends where it first needs one.
-/

namespace IntentBuild.Program

/-- A time of the file system in microseconds. -/
def microseconds (t : IO.FS.SystemTime) : Int := t.sec * 1000000 + (t.nsec.toNat / 1000 : Nat)

/-- The entries at a path and below it, with their absolute names. -/
partial def entriesAt (path : Path) : IO (List (List String × FileEntry)) := do
  let place := (← IO.currentDir) / path.text
  if ← place.isDir then
    let names := (← place.readDir).toList.map fun e => e.fileName
    let below ← names.mapM fun n => entriesAt (path.child n)
    return (path.names, .dir) :: below.flatten
  else if ← place.pathExists then
    let time := microseconds (← place.metadata).modified
    let bytes ← IO.FS.readBinFile place
    return [(path.names, .file (Thunk.pure bytes) time)]
  else return []

/-- The present time in microseconds, as the file system sees it. -/
def now : IO Int := do
  let (_, place) ← IO.FS.createTempFile
  let time := microseconds (← place.metadata).modified
  IO.FS.removeFile place
  return time

/-- Takes a step on the disk. -/
def apply : FileChange → IO Unit
  | .makeDir path => IO.FS.createDirAll path.text
  | .write path content => IO.FS.writeBinFile path.text content.get

/-- A workspace with the files at some places, and with identifiers that start from a random
number. -/
def load (workingDirectory : Path) (places : List Path) : IO Workspace := do
  let resolved := places.map fun p => p.resolve workingDirectory
  let entries ← resolved.mapM entriesAt
  let start := (← IO.getRandomBytes 11).data.foldl (fun n b => n * 256 + b.toNat) 1
  let time ← now
  return {
    files := FileTree.ofEntries workingDirectory time entries.flatten
    graph := { root := workingDirectory, instanceId := "" }
    supply := ⟨start * 4294967296, time⟩ }

/-- The value of an environment variable with its name. -/
def environmentEntry (name : String) : IO (Option (String × String)) := do
  return (← IO.getEnv name).map fun v => (name, v)

/-- Writes a notice to the standard error. -/
def printNotice (n : Notice) : IO Unit :=
  IO.eprintln ((match n.level with | .warning => "WARNING " | .error => "ERROR ") ++ n.message {})

/-- Writes the output of a command, and gives its exit code. -/
def finish (r : EStateM.Result Failure Workspace CommandLine.Exit) : IO UInt32 :=
  match r with
  | .ok e _ => do
      e.lines.forM IO.println
      return e.code.toUInt32
  | .error f _ => do
      IO.eprintln (f.message {})
      return 1

/-- The workspace that an operation leaves behind. -/
def workspaceAfter {α : Type} : EStateM.Result Failure Workspace α → Workspace
  | .ok _ w => w
  | .error _ w => w

/-- Runs a command line on the disk. -/
def run (args : List String) : IO UInt32 := do
  let here := Path.ofText (← IO.currentDir).toString
  let env := (← CommandLine.variableNames.mapM environmentEntry).filterMap fun e => e
  let near := here :: (CommandLine.storePlace? env here).toList ++
    (CommandLine.namedPlace? args).toList
  let far := match (CommandLine.projectPlaces env).run (← load here near) with
    | .ok paths _ => paths
    | .error .. => []
  let before ← load here (near ++ far)
  let result := (CommandLine.run env .unreachable args).run before
  let after := workspaceAfter result
  (before.files.changesSince after.files).forM apply
  after.notices.reverse.forM printNotice
  finish result

end IntentBuild.Program

/-- The command line program. -/
def main (args : List String) : IO UInt32 := IntentBuild.Program.run args
