import IntentBuild.Files.Tree

/-!
# Changes of a file tree

What has to be done to the files on a disk so that they follow a tree that was loaded from it and
then changed.  A file counts as changed when it has another time of change.
-/

namespace IntentBuild

/-- A step that brings a disk nearer to a tree. -/
inductive FileChange where
  /-- A directory is made. -/
  | makeDir (path : Path)
  /-- A file is written. -/
  | write (path : Path) (content : Thunk ByteArray)

/-- The time of change of an entry, if it is a file. -/
def FileEntry.time? : FileEntry → Option Int
  | .file _ changed => some changed
  | .dir => none

namespace FileTree

/-- The step for an entry of the new tree, if the old tree lacks it as it is. -/
def changeAt? (old : FileTree) (names : List String) (e : FileEntry) : Option FileChange :=
  let path : Path := ⟨.root, names⟩
  match e, old.entryAt names with
  | .dir, none => some (.makeDir path)
  | .dir, some _ => none
  | .file content changed, before =>
      if (before.bind FileEntry.time?) == some changed then none else some (.write path content)

/-- The steps from an old tree to a new one, directories before what is in them. -/
def changesSince (old new : FileTree) : List FileChange :=
  new.entries.filterMap fun e => old.changeAt? e.1 e.2

/-- A tree with the given entries and with all directories above them. -/
def ofEntries (workingDirectory : Path) (now : Int) (es : List (List String × FileEntry)) :
    FileTree :=
  let t := es.foldl (fun t e => t.addDirs e.1.dropLast) (FileTree.empty workingDirectory now 1)
  { t with entries := es.foldl (fun m e => Assoc.set e.1 e.2 m) t.entries }

end FileTree

end IntentBuild
