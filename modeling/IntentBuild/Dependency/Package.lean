import IntentBuild.Version.Range
import IntentBuild.Workspace

/-!
# The dependencies of a package file

A project may have a package file, `package.json`, with an object of dependencies.  Its entries
are raised to what the project needs: an entry is added, or put in place of a lower one, and none
is lowered or removed.  All other members of the file stay as they are.
-/

namespace IntentBuild.Package

/-- The text of an entry, as a range. -/
def entryText : Json → String
  | .null => "None"
  | .bool b => if b then "True" else "False"
  | .int i => Text.ofInt i
  | .float x => x.render .plain
  | .str s => s
  | v => v.render .line

/-- An entry has to be raised to a version. -/
def needs (entry : Option Json) (version : String) : Bool :=
  match entry with
  | none | some .null => true
  | some v => Version.isHigher version (some (entryText v))

/-- The entries with one of them raised to a version, and whether it changed. -/
def raiseEntry (state : Members × Bool) (dep : String × String) : Members × Bool :=
  if needs (Assoc.get? dep.1 state.1) dep.2 then
    (Assoc.set dep.1 (.str ("^" ++ dep.2)) state.1, true)
  else state

/-- The entries raised to all versions of a map, and whether any changed. -/
def raiseEntries (entries : Members) (deps : List (String × String)) : Members × Bool :=
  (Text.sortByKey deps).foldl raiseEntry (entries, false)

/-- The members of a package file with its dependencies raised, and whether any changed.  The
dependencies have to be an object. -/
def raise (path : Path) (data : Members) (deps : List (String × String)) :
    Except TextFault (Members × Bool) :=
  match Assoc.get? "dependencies" data with
  | none =>
      let (entries, changed) := raiseEntries [] deps
      .ok (Assoc.set "dependencies" (.obj entries) data, changed)
  | some (.obj entries) =>
      let (entries, changed) := raiseEntries entries deps
      .ok (Assoc.set "dependencies" (.obj entries) data, changed)
  | some _ => .error (.dependencies path)

/-- Raises the dependencies of a package file, if there is one, and says whether it changed. -/
def update (path : Path) (deps : List (String × String)) : Op Bool := do
  if ← Op.isFile path then
    let data ← Op.readObject path
    let (raised, changed) ← Op.lift .text (raise path data deps)
    if changed then
      let _ ← Op.writeIfChanged path ((Json.obj raised).render .pretty ++ "\n")
    return changed
  else return false

end IntentBuild.Package
