import IntentBuild.Proofs.Build.Stages

/-!
# Sessions

A request is an operation of the package with its arguments.  The nodes among the arguments are values
that the caller holds: they may have been deleted meanwhile, or never have existed.  Every build has
a token of cancellation of its own.  In a session requests are made, and files change from outside.  A
request that fails leaves behind what it changed, and the session goes on.

From an empty graph every session leaves tables that keep the rules (`wellFormed_after_session`).
-/

namespace IntentBuild

open Op

/-- An operation of the package with its arguments. -/
inductive Request where
  /-- Gives the node at an address. -/
  | getOrCreate (parent : Option Node) (type : NodeType) (name : String) (json : Option Members)
  /-- Gives the node of a file below a root. -/
  | placeOf (root : Node) (full : String) (kind : Graph.FileKind)
  /-- Changes what a node holds. -/
  | setContent (n : Node) (content : Change String) (json : Change Members) (stamp : Change Stamp)
  /-- Stores derived data. -/
  | upsertDerived (parent : Node) (type : NodeType) (name : String) (json : Option Members)
      (content : Change String)
  /-- Links two nodes. -/
  | link (source target : Node) (type : EdgeType) (name : String)
  /-- Removes a link. -/
  | unlink (source target : Node) (type : EdgeType) (name : String)
  /-- Deletes what is below a node. -/
  | cascadeDelete (n : Node) (includingSelf : Bool)
  /-- Stores a record. -/
  | store (c : Cache) (n : Node) (tool prompt output : String) (json : Option Members)
  /-- Deletes a record. -/
  | delete (c : Cache) (n : Node) (tool prompt : String)
  /-- Deletes all records of a node. -/
  | invalidate (n : Node)
  /-- Applies deltas that a file declares. -/
  | applyDeltas (project file : Node) (deltas : List DependencyDelta)
  /-- Makes a file declare a map. -/
  | replaceDeclared (project file : Node) (declared : Dependencies)
  /-- Builds the manifest anew. -/
  | reconcile (project : Node)
  /-- Writes the manifest to its file. -/
  | sync (project : Node)
  /-- Sets up a project. -/
  | setup (name : String) (path : Path)
  /-- Installs an extension. -/
  | install (project : Node) (e : ExtensionSpec)
  /-- Removes an extension. -/
  | uninstall (project : Node) (id : String)
  /-- Builds a project, with a new token that may have been used already. -/
  | build (cancelled : Bool) (s : Services) (name : String) (plan : Plan)

namespace Request

/-- The operation of a request, without its value. -/
def op : Request → Op Unit
  | getOrCreate parent type name json => do let _ ← Graph.getOrCreate parent type name json
  | placeOf root full kind => do let _ ← Graph.placeOf root full kind
  | setContent n content json stamp => do let _ ← Graph.setContent n content json stamp
  | upsertDerived parent type name json content => do
      let _ ← Graph.upsertDerived parent type name json content
  | link source target type name => do let _ ← Graph.link source target type name
  | unlink source target type name => do let _ ← Graph.unlink source target type name
  | cascadeDelete n includingSelf => do let _ ← Graph.cascadeDelete n includingSelf
  | store c n tool prompt output json => do let _ ← c.store n tool prompt output json
  | delete c n tool prompt => do let _ ← c.delete n tool prompt
  | invalidate n => do let _ ← Cache.invalidate n
  | applyDeltas project file deltas => do let _ ← Manifest.applyDeltas project file deltas
  | replaceDeclared project file declared => do
      let _ ← Manifest.replaceDeclared project file declared
  | reconcile project => do let _ ← Manifest.reconcile project
  | sync project => do let _ ← DepsFile.sync project
  | setup name path => do let _ ← Project.setup name path
  | install project e => do let _ ← Registry.install project e
  | uninstall project id => do let _ ← Registry.remove project id
  | build cancelled s name plan => do let _ ← Build.launch cancelled s name plan

/-- The request may store records. -/
def Records : Request → Prop
  | store .. | build .. => True
  | _ => False

/-- The request may write or remove files of a project. -/
def Writes : Request → Prop
  | sync _ | build .. => True
  | _ => False

section
variable {R : Regime} (hA : ∀ e : Event, ¬ e.Records → ¬ e.Writes → R.admits e)
include hA

/-- A regime that admits all that is neither a record nor a file admits what declaring dependencies
changes. -/
theorem declares_of_admits : R.Declares where
  manifest _ _ _ := hA _ id id
  redeclare _ _ _ := hA _ id id
  link _ := hA _ id id
  unlink _ _ := hA _ id id

theorem safe_cascadeDelete_of_admits (n : Node) (includingSelf : Bool) :
    Safe R (Graph.cascadeDelete n includingSelf) :=
  Graph.safe_cascadeDelete (fun _ => hA _ id id) (fun _ => hA _ id id) (fun _ => hA _ id id) ..

/-- A request that writes no file is safe where all changes are admitted but for records and files,
and one that may store records where these are admitted too. -/
theorem safe_op_of_not_writes :
    ∀ r : Request, ¬ r.Writes → (r.Records → ∀ q, R.admits (.record q)) → Safe R r.op
  | getOrCreate .., _, _ => (Graph.safe_getOrCreate fun _ _ _ => hA _ id id).bind fun _ => .pure _
  | placeOf .., _, _ => (Graph.safe_placeOf fun _ _ _ => hA _ id id).bind fun _ => .pure _
  | setContent .., _, _ => (Graph.safe_setContent fun _ _ _ => hA _ id id).bind fun _ => .pure _
  | upsertDerived .., _, _ =>
      (Graph.safe_upsertDerived (fun _ _ _ _ => hA _ id id) fun _ _ _ _ => hA _ id id).bind
        fun _ => .pure _
  | link .., _, _ => (Graph.safe_link fun _ => hA _ id id).bind fun _ => .pure _
  | unlink .., _, _ => (Graph.safe_unlink fun _ => hA _ id id).bind fun _ => .pure _
  | cascadeDelete .., _, _ => (safe_cascadeDelete_of_admits hA ..).bind fun _ => .pure _
  | store .., _, hr =>
      (Cache.safe_store (fun q _ => hr trivial q) fun _ => hA _ id id).bind fun _ => .pure _
  | delete .., _, _ => (Cache.safe_delete (fun _ => hA _ id id) ..).bind fun _ => .pure _
  | invalidate .., _, _ => (Cache.safe_invalidate (fun _ => hA _ id id) _).bind fun _ => .pure _
  | applyDeltas .., _, _ =>
      (Manifest.safe_applyDeltas (declares_of_admits hA) ..).bind fun _ => .pure _
  | replaceDeclared .., _, _ =>
      (Manifest.safe_replaceDeclared (declares_of_admits hA) ..).bind fun _ => .pure _
  | reconcile .., _, _ => (Manifest.safe_reconcile (declares_of_admits hA) _).bind fun _ => .pure _
  | setup .., _, _ =>
      (Project.safe_setup (fun _ _ => hA _ id id) (fun _ => hA _ id id) ..).bind fun _ => .pure _
  | install .., _, _ =>
      (Registry.safe_install (fun _ _ => hA _ id id) (fun _ _ _ => hA _ id id) ..).bind
        fun _ => .pure _
  | uninstall .., _, _ =>
      (Registry.safe_remove (fun hI _ _ => (safe_cascadeDelete_of_admits hA ..).runs _ hI) ..).bind
        fun _ => .pure _
  | sync _, hn, _ => absurd trivial hn
  | build .., hn, _ => absurd trivial hn

end

/-- A request is safe where all changes are admitted but for records, and those where the request may
store some. -/
theorem safe_op {R : Regime} (hA : ∀ e, ¬ e.Records → R.admits e) (r : Request)
    (hr : r.Records → ∀ q, R.admits (.record q)) : Safe R r.op := by
  have hA' (e : Event) (he : ¬ e.Records) (_ : ¬ e.Writes) : R.admits e := hA e he
  cases r with
  | sync project =>
      exact (DepsFile.safe_sync (declares_of_admits hA') (fun _ _ _ _ => hA _ id)
        fun _ _ => ⟨hA _ id, hA _ id⟩).bind fun _ => .pure _
  | build b s name plan =>
      have hall (e : Event) : R.admits e := by
        by_cases he : e.Records
        · cases e with
          | record q => exact hr trivial q
          | _ => exact he.elim
        · exact hA e he
      have hlaunch : Safe .any (Build.launch b s name plan) := .of_runs fun _ _ =>
        Build.runs_launch Regime.declares_any trivial trivial b fun _ =>
          ⟨(Regime.builds_any _).carries, DepsFile.safe_sync Regime.declares_any
            (fun _ _ _ _ => trivial) fun _ _ => ⟨trivial, trivial⟩⟩
      exact (Safe.of_any hall hlaunch).bind fun _ => .pure _
  | _ => exact safe_op_of_not_writes hA' _ id hr

end Request

/-- What happens to a workspace. -/
inductive Incident where
  /-- A request is made. -/
  | asked (r : Request)
  /-- Files change from outside. -/
  | outside (t : FileTree)

/-- The workspace after it happened. -/
def Incident.after : Incident → Workspace → Workspace
  | asked r, w => r.op.after w
  | outside t, w => { w with files := t }

namespace Workspace

/-- The workspace with an empty graph. -/
def emptied (w : Workspace) : Workspace := { w with graph := { w.graph with tables := {} } }

theorem sound_emptied (w : Workspace) : w.emptied.Sound where
  wellFormed := Tables.wellFormed_empty
  spent hu := by rcases hu with h | h | h <;> cases h
  exact h := by cases h

/-- The workspace after a session. -/
def session (is : List Incident) (w : Workspace) : Workspace := is.foldl (fun w i => i.after w) w

/-- Whatever happens leaves the graph in order. -/
theorem Sound.incident {w : Workspace} (hw : w.Sound) (i : Incident) : (i.after w).Sound := by
  cases i with
  | asked r =>
      have hsafe : Safe .any r.op := r.safe_op (fun _ _ => trivial) fun _ _ => trivial
      exact ((hsafe.runs w trivial).after hw).sound hw
  | outside t => exact ⟨hw.wellFormed, hw.spent, hw.exact⟩

theorem sound_session (is : List Incident) {w : Workspace} (hw : w.Sound) :
    (w.session is).Sound := by
  induction is generalizing w with
  | nil => exact hw
  | cons i is ih => exact ih (hw.incident i)

/-- A request at the end of a session. -/
theorem session_append_asked (is : List Incident) (r : Request) (w : Workspace) :
    w.session (is ++ [.asked r]) = r.op.after (w.session is) := by
  rw [Workspace.session, List.foldl_append]
  rfl

/-- From an empty graph every session leaves tables whose indexes are the inverses of the tables,
where parents, ends of edges and nodes of records exist, no node is above itself, keys are unique,
and nothing is an orphan. -/
theorem wellFormed_after_session (is : List Incident) (w : Workspace) :
    let t := (w.emptied.session is).tables
    t.WellFormed ∧ t.orphanNodes = [] ∧ t.orphanEdges = [] ∧
      (∀ m ∈ t.allNodes, ∀ n ∈ t.allNodes, m.key = n.key → m = n) ∧
      (∀ d ∈ t.allEdges, ∀ e ∈ t.allEdges, d.key = e.key → d = e) ∧
      (∀ q ∈ t.allRecords, ∀ r ∈ t.allRecords, q.key = r.key → q = r) := by
  have h := (sound_session is w.sound_emptied).wellFormed
  refine ⟨h, (Tables.orphans_eq_nil h).1, (Tables.orphans_eq_nil h).2, ?_, ?_, ?_⟩
  · intro m hm n hn hk
    have hm := (Tables.mem_allNodes h).mp hm
    have hn := (Tables.mem_allNodes h).mp hn
    exact Option.some.inj (hm.symm.trans ((h.nodes.unique hm hn hk).symm ▸ hn))
  · intro d hd e he hk
    have hd := (Tables.mem_allEdges h).mp hd
    have he := (Tables.mem_allEdges h).mp he
    exact Option.some.inj (hd.symm.trans ((h.edges.unique hd he hk).symm ▸ he))
  · intro q hq r hr hk
    have hq := (Tables.mem_allRecords h).mp hq
    have hr := (Tables.mem_allRecords h).mp hr
    exact Option.some.inj (hq.symm.trans ((h.records.unique hq hr hk).symm ▸ hr))

end Workspace

end IntentBuild
