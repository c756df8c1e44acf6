import IntentBuild.Extension.Spec
import IntentBuild.Graph.Tree

/-!
# The extensions of a project

The extensions that are installed into a project are nodes below a container node, one for each
identifier.  Installing an identifier again replaces all that was kept for it.
-/

namespace IntentBuild.Registry

/-- The name of the container. -/
def containerName : String := "Extensions"

/-- The extension in a file. -/
def load (path : Path) : Op ExtensionSpec := do
  if ← Op.isFile path then
    let text ← Op.readText path
    match Json.parse? text with
    | none => throw (.extension (.invalid path ⟨"ExtensionSpec", [⟨[], .notJson⟩]⟩))
    | some v =>
        Op.lift (fun f => .extension (.invalid path f))
          ((ExtensionSpec.read v).validated "ExtensionSpec")
  else throw (.extension (.noFile path))

/-- Installs an extension into a project, or replaces the one with its identifier. -/
def install (project : Node) (e : ExtensionSpec) : Op Node :=
  Op.transaction do
    let container ← Graph.getOrCreate (some project) .extensions containerName none
    Graph.upsertDerived container .extension e.id e.toJson.members? .keep

/-- Removes an extension from a project, and says whether it was installed. -/
def remove (project : Node) (id : String) : Op Bool := do
  match ← Graph.child? (some project) .extensions containerName with
  | none => return false
  | some container =>
      match ← Graph.child? (some container) .extension id with
      | none => return false
      | some n => let _ ← Graph.cascadeDelete n true; return true

/-- The extension that a node keeps. -/
def ofNode (n : Node) : Except Invalid ExtensionSpec :=
  (ExtensionSpec.read (.obj n.members)).validated "ExtensionSpec"

/-- The extensions that are installed into a project, in the order of their identifiers. -/
def installed (project : Node) : Op (List ExtensionSpec) := do
  match ← Graph.child? (some project) .extensions containerName with
  | none => return []
  | some container =>
      let ns ← Graph.children container (some .extension)
      return ExtensionSpec.sortById (← Op.lift .invalid (ns.mapM ofNode))

end IntentBuild.Registry
