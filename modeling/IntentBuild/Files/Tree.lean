import IntentBuild.Assoc
import IntentBuild.Path

/-!
# The file tree

A file tree holds directories and files at absolute paths, and the time of the last change of
every file.  The tree keeps a working directory, from which relative paths are seen, and a
clock.  Every file that is written through the tree takes the next tick of that clock.

The content of a file is computed when it is first read, so a document that is written often
and read rarely costs little.
-/

namespace IntentBuild

/-- A directory or a file. -/
inductive FileEntry where
  /-- A directory. -/
  | dir
  /-- A file with its content and the time of its last change in microseconds. -/
  | file (content : Thunk ByteArray) (changed : Int)
deriving Inhabited

/-- Why the file system refuses an operation at a path. -/
inductive FileFault where
  /-- Nothing is there. -/
  | notFound (path : Path)
  /-- Something is there already. -/
  | occupied (path : Path)
  /-- A directory is there. -/
  | isDirectory (path : Path)
  /-- A file stands where a directory is needed. -/
  | notDirectory (path : Path)
deriving DecidableEq, Repr

/-- The wording of a fault. -/
def FileFault.message : FileFault → String
  | .notFound p => "No such file or directory: " ++ p.text
  | .occupied p => "File exists: " ++ p.text
  | .isDirectory p => "Is a directory: " ++ p.text
  | .notDirectory p => "Not a directory: " ++ p.text

/-- A file tree with its clock. -/
structure FileTree where
  /-- The entries by the names of their absolute paths, the root left out. -/
  entries : List (List String × FileEntry)
  /-- The directory from which relative paths are seen. -/
  workingDirectory : Path
  /-- The time of the next change, in microseconds. -/
  nextTick : Int
  /-- The time between two ticks, in microseconds. -/
  tickLength : Int
deriving Inhabited

namespace FileTree

/-- The names of the absolute path that a path means in the tree. -/
def key (t : FileTree) (p : Path) : List String := (p.resolve t.workingDirectory).names

/-- The entry at an absolute row of names.  The root is a directory. -/
def entryAt (t : FileTree) (k : List String) : Option FileEntry :=
  if k.isEmpty then some .dir else Assoc.get? k t.entries

/-- The entry at a path. -/
def entry? (t : FileTree) (p : Path) : Option FileEntry := t.entryAt (t.key p)

/-- A file stands at the path. -/
def isFile (t : FileTree) (p : Path) : Bool :=
  match t.entry? p with
  | some (.file ..) => true
  | _ => false

/-- A directory stands at the path. -/
def isDir (t : FileTree) (p : Path) : Bool :=
  match t.entry? p with
  | some .dir => true
  | _ => false

/-- A file stands at the row of names. -/
def isFileAt (t : FileTree) (k : List String) : Bool :=
  match t.entryAt k with
  | some (.file ..) => true
  | _ => false

/-- The proper starts of a row of names, the shortest first. -/
def starts (k : List String) : List (List String) :=
  (List.range k.length).map fun n => k.take n

/-- Why nothing can be reached at a path where no entry stands. -/
def absence (t : FileTree) (p : Path) : FileFault :=
  if (starts (t.key p)).any t.isFileAt then .notDirectory p else .notFound p

/-- The bytes of the file at a path. -/
def readBytes (t : FileTree) (p : Path) : Except FileFault ByteArray :=
  match t.entry? p with
  | some (.file content _) => .ok content.get
  | some .dir => .error (.isDirectory p)
  | none => .error (t.absence p)

/-- The time of the last change of the file at a path.  Directories are as old as the tree. -/
def changedAt (t : FileTree) (p : Path) : Except FileFault Int :=
  match t.entry? p with
  | some (.file _ changed) => .ok changed
  | some .dir => .ok 0
  | none => .error (t.absence p)

/-- Puts an entry at a row of names. -/
def putAt (t : FileTree) (k : List String) (e : FileEntry) : FileTree :=
  { t with entries := Assoc.set k e t.entries }

/-- Makes the directories at a row of names and at all its starts. -/
def addDirs (t : FileTree) (k : List String) : FileTree :=
  (starts k ++ [k]).foldl (fun t k => if (t.entryAt k).isSome then t else t.putAt k .dir) t

/-- Makes the directory at a path with all directories above it.  A directory that is there
already is left alone. -/
def makeDirs (t : FileTree) (p : Path) : Except FileFault FileTree :=
  let k := t.key p
  if t.isFileAt k then .error (.occupied p)
  else if (starts k).any t.isFileAt then .error (.notDirectory p)
  else .ok (t.addDirs k)

/-- The content of a text file. -/
def textContent (s : String) : Thunk ByteArray := Thunk.mk fun _ => s.toUTF8

/-- Puts a file at a path whose directory is there, with a given time of change. -/
def place (t : FileTree) (p : Path) (content : Thunk ByteArray) (changed : Int) :
    Except FileFault FileTree :=
  let k := t.key p
  match t.entryAt k with
  | some .dir => .error (.isDirectory p)
  | some (.file ..) => .ok (t.putAt k (.file content changed))
  | none =>
      match t.entryAt k.dropLast with
      | some .dir => .ok (t.putAt k (.file content changed))
      | _ => .error (t.absence p)

/-- Writes a file at a path whose directory is there. -/
def write (t : FileTree) (p : Path) (content : Thunk ByteArray) : Except FileFault FileTree :=
  (t.place p content t.nextTick).map fun t => { t with nextTick := t.nextTick + t.tickLength }

/-- Removes the entry at a path and all that is below it. -/
def remove (t : FileTree) (p : Path) : FileTree :=
  let k := t.key p
  { t with entries := t.entries.filter fun e => !k.isPrefixOf e.1 }

/-- Removes the file at a path. -/
def removeFile (t : FileTree) (p : Path) : FileTree :=
  let k := t.key p
  { t with entries := t.entries.filter fun e => e.1 ≠ k }

/-- The order of two rows of names, name by name. -/
def namesLe : List String → List String → Bool
  | [], _ => true
  | _ :: _, [] => false
  | a :: as, b :: bs => if a = b then namesLe as bs else Text.charsLe a b

/-- The rows of names, seen from a directory, of all entries below it. -/
def below (t : FileTree) (k : List String) : List (List String × FileEntry) :=
  t.entries.filterMap fun e =>
    if k.isPrefixOf e.1 && k.length < e.1.length then some (e.1.drop k.length, e.2) else none

/-- A name that is shown: it does not begin with a point. -/
def isShown (name : String) : Bool := !Text.beginsWith name "."

/-- The rows of names, seen from a directory, of the files below it whose names end in a given
text.  No part of such a row begins with a point.  The rows are in ascending order. -/
def filesBelow (t : FileTree) (root : Path) (suffix : String) : List (List String) :=
  let found := (t.below (t.key root)).filterMap fun e =>
    match e.2 with
    | .file .. =>
        if e.1.all isShown && Text.finishesWith (e.1.getLastD "") suffix then some e.1 else none
    | .dir => none
  Sorting.sort namesLe found

/-- The paths of the shown files below a directory whose names end in a given text, in
ascending order. -/
def listFiles (t : FileTree) (root : Path) (suffix : String) : List Path :=
  (t.filesBelow root suffix).map fun names => { root with names := root.names ++ names }

/-- A tree whose only directories are the working directory and those above it. -/
def empty (workingDirectory : Path) (nextTick tickLength : Int) : FileTree :=
  FileTree.addDirs ⟨[], workingDirectory, nextTick, tickLength⟩ workingDirectory.names

end FileTree

end IntentBuild
