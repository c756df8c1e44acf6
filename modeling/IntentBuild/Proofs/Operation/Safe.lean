import IntentBuild.Dependency.DepsFile
import IntentBuild.Extension.Registry
import IntentBuild.Cache
import IntentBuild.Project
import IntentBuild.Proofs.Graph.Changes

/-!
# What the operations below a build change

Every operation of the package below a build makes only elementary changes, whatever nodes it is
called with and whether it fails or not.  Each is safe in every regime that admits the changes it
makes.  What declaring dependencies asks of a regime is `Regime.Declares`: the map that a file or
the manifest declares is put in place, and all else that the node keeps stays.
-/

namespace IntentBuild

open Op

variable {R : Regime}

/-! ## The graph -/

namespace Graph

theorem safe_getOrCreate {parent : Option Node} {type : NodeType} {name : String}
    {json : Option Members} (hN : ∀ n, n.type = type → n.json = json → R.admits (.node n)) :
    Safe R (getOrCreate parent type name json) :=
  .of_runs fun _ _ => runs_getOrCreate fun n hk hj _ => hN n (congrArg NodeKey.type hk) hj

theorem safe_setContent {n : Node} {content : Change String} {json : Change Members}
    {stamp : Change Stamp}
    (hC : ∀ old new, Revised content json stamp old new → R.admits (.content old new)) :
    Safe R (setContent n content json stamp) :=
  .of_runs fun _ _ => runs_setContent fun old new _ hr => hC old new hr

theorem safe_upsertDerived {parent : Node} {type : NodeType} {name : String}
    {json : Option Members} {content : Change String}
    (hN : ∀ n, n.type = type → n.parent = some parent.id → n.json = none → R.admits (.node n))
    (hC : ∀ old new, old.type = type → old.parent = some parent.id → R.admits (.content old new)) :
    Safe R (upsertDerived parent type name json content) :=
  .of_runs fun _ _ => runs_upsertDerived
    (fun n hk hj _ => hN n (congrArg NodeKey.type hk) (congrArg NodeKey.parent hk) hj)
    fun old new hk _ => hC old new (congrArg NodeKey.type hk) (congrArg NodeKey.parent hk)

theorem safe_link {source target : Node} {type : EdgeType} {name : String}
    (hE : ∀ e, R.admits (.edge e)) : Safe R (link source target type name) :=
  .of_runs fun _ _ => runs_link fun e _ => hE e

theorem safe_unlink {source target : Node} {type : EdgeType} {name : String}
    (hE : ∀ e, R.admits (.dropEdge e)) : Safe R (unlink source target type name) :=
  .of_runs fun _ _ => runs_unlink fun e _ => hE e

theorem safe_deleteRecord {id : String} (hR : ∀ r, R.admits (.dropRecord r)) :
    Safe R (deleteRecord id) :=
  .of_runs fun _ _ => runs_deleteRecord fun r _ => hR r

theorem safe_cascadeDelete (hE : ∀ e, R.admits (.dropEdge e)) (hR : ∀ r, R.admits (.dropRecord r))
    (hN : ∀ n, R.admits (.dropNode n)) (n : Node) (includingSelf : Bool) :
    Safe R (cascadeDelete n includingSelf) :=
  .of_runs fun _ _ => runs_cascadeDelete (D := fun _ => True) (fun _ e _ _ => hE e) (fun _ r _ _ => hR r)
    (fun m _ => hN m) ⟨fun _ _ _ => trivial, fun _ _ _ _ _ _ => trivial⟩ fun _ _ => trivial

theorem path?_eq_ok {n : Node} {p : Path} {w w' : Workspace} (h : (path? n).run w = .ok (some p) w') :
    n.pathEntry = .path p := by
  unfold path? at h
  split at h
  · cases h
  · rename_i h'; cases h; exact h'
  · cases h

theorem path?_run {n : Node} {p : Path} (h : n.pathEntry = .path p) (w : Workspace) :
    (path? n).run w = .ok (some p) w := by
  rw [path?, h]
  rfl

theorem pathOf_run {n : Node} {p : Path} (h : n.pathEntry = .path p) (w : Workspace) :
    (pathOf n).run w = .ok p w := by
  rw [pathOf, bind_ok (path?_run h w)]
  rfl

theorem pathOf_eq_ok {n : Node} {p : Path} {w w' : Workspace} (h : (pathOf n).run w = .ok p w') :
    n.pathEntry = .path p := by
  obtain ⟨o, w₁, ho, h⟩ := bind_eq_ok.mp h
  cases o with
  | none => cases h
  | some q => cases h; exact path?_eq_ok ho

/-- A node that was read below another one. -/
theorem child?_eq_ok {w w' : Workspace} (hw : w.Sound) {parent : Option Node}
    {type : NodeType} {name : String} {n : Node} (h : (child? parent type name).run w = .ok (some n) w') :
    w.tables.node? n.id = some n ∧ n.type = type := by
  have hfind : w.tables.findNode? ⟨parent.map Node.id, w.graph.instanceId, type, name⟩ = some n := by
    cases h' : w.tables.findNode? ⟨parent.map Node.id, w.graph.instanceId, type, name⟩ with
    | none =>
        have hrun : (child? parent type name).run w = .ok none w :=
          congrArg (EStateM.Result.ok · w) h'
        rw [hrun] at h
        cases h
    | some m =>
        have hrun : (child? parent type name).run w = .ok (some m) w :=
          congrArg (EStateM.Result.ok · w) h'
        rw [hrun] at h
        cases h
        rfl
  obtain ⟨hn, hk⟩ := (Tables.findNode?_eq_some hw.wellFormed).mp hfind
  exact ⟨hn, congrArg NodeKey.type hk⟩

theorem reader_rootPath (root : Node) : Reader (rootPath root) :=
  (reader_path? root).bind fun
    | some _ => .pure _
    | none => .throw _

theorem reader_relativeParts (root : Node) (full : String) : Reader (relativeParts root full) :=
  (reader_rootPath root).bind fun _ => .lift _ _

theorem reader_relativePath (root : Node) (full : String) : Reader (relativePath root full) :=
  (reader_relativeParts root full).bind fun _ => .pure _

theorem reader_findPlace (kind : FileKind) :
    ∀ (parent : Node) (parts : List String), Reader (findPlace kind parent parts)
  | _, [] => .pure _
  | _, [_] => reader_child? _ _ _
  | _, _ :: name :: rest => (reader_child? _ _ _).bind fun
      | some d => reader_findPlace kind d (name :: rest)
      | none => .pure _

theorem reader_findPlaceOf (root : Node) (full : String) (kind : FileKind) :
    Reader (findPlaceOf root full kind) :=
  (reader_relativeParts root full).bind fun _ => reader_findPlace _ _ _

theorem reader_filesFrom (kind : FileKind) :
    ∀ (fuel : Nat) (parent : Node) (dir : Path), Reader (filesFrom kind fuel parent dir)
  | 0, _, _ => .throw _
  | fuel + 1, _, _ =>
      (reader_children _ _).bind fun cs => .bind (.mapM (fun _ =>
        .ite (reader_filesFrom kind fuel _ _) (.ite (.pure _) (.pure _))) cs) fun _ => .pure _

theorem reader_fileNodes (root : Node) (kind : FileKind) : Reader (fileNodes root kind) :=
  reader_depthBound.bind fun _ => (reader_rootPath root).bind fun _ =>
    (reader_filesFrom _ _ _ _).bind fun _ => .pure _

theorem safe_makePlace {kind : FileKind}
    (hN : ∀ n, n.type = kind.dir ∨ n.type = kind.file → n.json = none → R.admits (.node n)) :
    ∀ (parent : Node) (parts : List String), Safe R (makePlace kind parent parts)
  | _, [] => .pure _
  | _, [_] => safe_getOrCreate fun n ht => hN n (.inr ht)
  | _, _ :: name :: rest => (safe_getOrCreate fun n ht => hN n (.inl ht)).bind fun d =>
      safe_makePlace hN d (name :: rest)

theorem safe_placeOf {root : Node} {full : String} {kind : FileKind}
    (hN : ∀ n, n.type = kind.dir ∨ n.type = kind.file → n.json = none → R.admits (.node n)) :
    Safe R (placeOf root full kind) :=
  .reader (reader_relativeParts _ _) fun _ => safe_makePlace hN _ _

end Graph

/-! ## The cache -/

namespace Cache

open Graph

theorem safe_prune (hD : ∀ r, R.admits (.dropRecord r)) (c : Cache) (n : Node)
    (tool keep : String) : Safe R (c.prune n tool keep) :=
  .reader (reader_records _ _) fun _ => .bind
    (.forIn fun _ _ => .once (safe_deleteRecord hD))
    fun _ => .pure _

/-- The record keeps an output for a prompt. -/
structure Stored (digest : String → String) (id tool prompt output : String) (json : Option Members)
    (r : GenerationRecord) : Prop where
  /-- The node. -/
  node : r.nodeId = id
  /-- The tool. -/
  tool : r.toolId = tool
  /-- The digest. -/
  hash : r.promptHash = digest prompt
  /-- The prompt. -/
  prompt : r.prompt = prompt
  /-- The text of the output. -/
  content : r.content = output
  /-- The structured output. -/
  json : r.json = json

/-- The draft of a record, as it is kept. -/
theorem stored_kept (c : Cache) (id tool prompt output : String) (json : Option Members)
    (t : Tables) (s : Supply) : Stored c.digest id tool prompt output json (t.kept
      ((GenerationRecord.draft none id tool (c.digest prompt) prompt output json none).run s).1) := by
  unfold Tables.kept
  split <;> exact ⟨rfl, rfl, rfl, rfl, rfl, rfl⟩

theorem safe_store {c : Cache} {n : Node} {tool prompt output : String} {json : Option Members}
    (hR : ∀ r, Stored c.digest n.id tool prompt output json r → R.admits (.record r))
    (hD : ∀ r, R.admits (.dropRecord r)) : Safe R (c.store n tool prompt output json) := by
  refine .transaction ?_
  rw [← bind_assoc]
  exact .bind_runs (fun _ _ => runs_upsertDraft (takes_draftRecord ..) (hR _ (stored_kept ..)))
    fun _ r w' _ hI _ => ((safe_prune hD c n tool r.id).bind fun _ => .pure _).runs w' hI

theorem safe_lookup (c : Cache) (n : Node) (tool prompt : String) :
    Safe R (c.lookup n tool prompt) :=
  .reader (reader_findRecord? _) fun
    | none => .pure _
    | some _ => .ite (.pure _) (.bind (.of_runs fun _ _ => runs_notify _) fun _ => .pure _)

theorem safe_delete (hD : ∀ r, R.admits (.dropRecord r)) (c : Cache) (n : Node)
    (tool prompt : String) : Safe R (c.delete n tool prompt) :=
  .reader (reader_findRecord? _) fun
    | none => .pure _
    | some _ => (safe_deleteRecord hD).bind fun _ => .pure _

theorem safe_invalidate (hD : ∀ r, R.admits (.dropRecord r)) (n : Node) : Safe R (invalidate n) :=
  .reader (reader_records _ _) fun _ => .bind
    (.transaction (.bind
      (.forIn fun _ _ => .once (safe_deleteRecord hD))
      fun _ => .pure _))
    fun _ => .pure _

end Cache

/-! ## Dependencies -/

namespace Manifest

/-- Only the declared map of a node is put in place of another one. -/
structure Redeclared (old new : Node) : Prop where
  /-- The address stays. -/
  key : new.key = old.key
  /-- The content stays. -/
  content : new.content = old.content
  /-- All other members stay. -/
  other : ∀ {key}, key ≠ "deps" → Assoc.get? key new.members = Assoc.get? key old.members

/-- A node that takes on a declared map, where what it keeps was read before. -/
theorem redeclared_of_revised {n old new : Node} {m : Dependencies}
    (hr : Graph.Revised .keep (.put (some (withTexts "deps" n m))) .keep old new)
    (hn : ∀ {key}, key ≠ "deps" → Assoc.get? key n.members = Assoc.get? key old.members) :
    Redeclared old new := by
  refine ⟨hr.key, hr.content, fun {key} hk => ?_⟩
  have hmembers : new.members = withTexts "deps" n m := by rw [Node.members, hr.json]; rfl
  rw [hmembers, withTexts, Assoc.get?_set_other hk, hn hk]

end Manifest

/-- The regime admits what declaring dependencies changes. -/
structure Regime.Declares (R : Regime) : Prop where
  /-- A new manifest. -/
  manifest : ∀ n, n.type = .deps → n.json = some [("deps", .obj [])] → R.admits (.node n)
  /-- Another declared map. -/
  redeclare : ∀ old new, Manifest.Redeclared old new → R.admits (.content old new)
  /-- A new edge. -/
  link : ∀ e, R.admits (.edge e)
  /-- An edge to the manifest that goes. -/
  unlink : ∀ e, e.type = .dependsOn → R.admits (.dropEdge e)

theorem Regime.declares_any : Regime.any.Declares :=
  ⟨fun _ _ _ => trivial, fun _ _ _ => trivial, fun _ => trivial, fun _ _ => trivial⟩

namespace Manifest

open Graph

theorem runs_node (hR : R.Declares) (project : Node) (w : Workspace) :
    Runs R.admits w (node project) fun b w' =>
      Found w.tables ⟨some project.id, w.graph.instanceId, .deps, "Dependencies"⟩
        (some [("deps", .obj [])]) b w'.tables :=
  runs_getOrCreate fun n hk hj _ => hR.manifest n (congrArg NodeKey.type hk) hj

theorem safe_node (hR : R.Declares) (project : Node) : Safe R (node project) :=
  .of_runs fun w _ => runs_node hR project w

theorem reader_versionOf (e : Edge) : Reader (versionOf e) :=
  (reader_find? _).bind fun
    | some _ => .lift _ _
    | none => .pure _

theorem reader_edges (manifest : Node) : Reader (edges manifest) := reader_edgesTo _ _

theorem reader_union (es : List Edge) (u : Dependencies) :
    Reader (es.foldlM (fun u e => return raise u e.name (← versionOf e)) u) :=
  .foldlM (fun _ _ => (reader_versionOf _).bind fun _ => .pure _) _ _

theorem reader_highest (manifest : Node) (name : String) : Reader (highest manifest name) :=
  (reader_edges _).bind fun _ => (reader_union _ _).bind fun _ => .pure _

/-- What the files declare is read from the edges to the manifest. -/
theorem reader_unionOf (manifest : Node) : Reader (unionOf manifest) :=
  (reader_edges _).bind fun _ => (reader_union _ _).bind fun _ => .pure _

theorem reader_refreshName (manifest : Node) (m : Dependencies) (name : String) :
    Reader (refreshName manifest m name) :=
  (reader_highest _ _).bind fun
    | some _ => .pure _
    | none => .pure _

/-- Deltas change the edges, and no node. -/
theorem runs_linkDelta (hR : R.Declares) (file manifest : Node) (d : DependencyDelta)
    (w : Workspace) :
    Runs R.admits w (linkDelta file manifest d) fun _ w' => w'.tables.nodes = w.tables.nodes := by
  unfold linkDelta
  split
  · refine (runs_link fun e _ => hR.link e).bind fun e w' _ _ h => .pure ?_
    obtain ⟨-, h⟩ := h
    generalize w'.tables = t at h
    cases h with
    | old => rfl
    | new h _ => obtain ⟨rfl, -⟩ := Tables.insertEdge_eq_ok h; rfl
  · refine (runs_unlink fun e hk => hR.unlink e (congrArg EdgeKey.type hk)).bind fun _ w' _ _ h => .pure ?_
    rcases h with ⟨-, -, h⟩ | ⟨-, e, -, -, h⟩
    · rw [h]
    · rw [h]
      exact sparing_nil ..

/-- Applying deltas puts declared maps in place, and changes edges. -/
theorem safe_applyDeltas (hR : R.Declares) (project file : Node) (deltas : List DependencyDelta) :
    Safe R (applyDeltas project file deltas) := by
  refine .transaction ⟨fun w _ hw => ?_⟩
  refine ((runs_node hR project w).bind fun b w₁ hw₁ _ hb => ?_) hw
  obtain ⟨hb, -⟩ := hb.node? hw.wellFormed
  refine .reader (reader_require _) fun f hf => .lift fun before _ => ?_
  have hf := require_eq_ok hf
  have hid : f.id = file.id := hw₁.wellFormed.nodes.owned hf
  rw [← hid] at hf
  refine (Runs.forIn_keep (I := fun w₂ => w₂.tables.nodes = w₁.tables.nodes) (fun d _ w₂ _ _ h₂ =>
    (runs_linkDelta hR f b d w₂).bind fun _ _ _ _ h => .pure ⟨rfl, h.trans h₂⟩) rfl).bind
    fun _ w₂ _ _ h₂ => ?_
  have hnode (i : String) : w₂.tables.node? i = w₁.tables.node? i := by
    rw [Tables.node?, h₂, Tables.node?]
  refine (runs_setContent fun old new ho hr => hR.redeclare _ _ ?_).bind fun f' w₃ _ _ h₃ => ?_
  · rw [hnode, hf, Option.some.injEq] at ho
    exact redeclared_of_revised hr fun _ => ho ▸ rfl
  obtain ⟨old, ho, hrev, ht⟩ := h₃
  rw [hnode, hf, Option.some.injEq] at ho
  refine .lift fun known _ => .reader (.foldlM (fun _ _ => reader_refreshName ..) _ _)
    fun union _ => ?_
  -- The manifest may be the file itself.  Then it has just taken on the map of the file.
  refine (runs_setContent fun old' new ho' hr => hR.redeclare _ _ ?_).weaken
    fun _ _ _ _ => trivial
  refine redeclared_of_revised hr fun hk => ?_
  rw [ht, Tables.node?_putNode, hnode] at ho'
  split at ho'
  · rename_i hsame
    rw [hsame, hrev.id, ← ho, hf, Option.some.injEq] at hb
    rw [Option.some.injEq] at ho'
    rw [← ho', (redeclared_of_revised hrev fun _ => ho ▸ rfl).other hk, ← ho, hb]
  · rw [hb, Option.some.injEq] at ho'
    rw [ho']

/-- What the files declare is read without a change once the manifest is there. -/
theorem runs_declared (hR : R.Declares) {project b : Node} {w : Workspace} (hb : w.tables.findNode?
    ⟨some project.id, w.graph.instanceId, .deps, "Dependencies"⟩ = some b) :
    Runs R.admits w (declared project) fun _ w' => w'.tables = w.tables := by
  intro hw
  refine ((runs_node hR project w).bind fun b' w' _ _ h => ?_) hw
  obtain ⟨-, ht⟩ := h.eq_old hw.wellFormed hb
  exact .of_reader (reader_unionOf b') fun _ _ => ht

/-- Reconciling puts the declared map of the manifest in place. -/
theorem safe_reconcile (hR : R.Declares) (project : Node) : Safe R (reconcile project) := by
  refine ⟨fun w _ hw => ?_⟩
  refine ((runs_node hR project w).bind fun b w₁ hw₁ hr₁ hb => ?_) hw
  obtain ⟨hb, hk⟩ := hb.node? hw.wellFormed
  have hfind := (Tables.findNode?_eq_some hw₁.wellFormed).mpr ⟨hb, hk⟩
  rw [← hr₁.instanceId_eq] at hfind
  refine (runs_declared hR hfind).bind fun union w₂ _ _ ht => ?_
  rw [← ht] at hb
  have put : Runs R.admits w₂ (setJson b (withTexts "deps" b union)) fun _ _ => True := by
    refine (runs_setContent fun old new ho hr => hR.redeclare _ _ ?_).weaken fun _ _ _ _ => trivial
    rw [hb, Option.some.injEq] at ho
    exact redeclared_of_revised hr fun _ => ho ▸ rfl
  exact .ite (fun _ => .ite (fun _ => .bind (Q := fun _ _ => False) (.throw _)
    fun _ _ _ _ h => h.elim) fun _ => put.bind fun _ _ _ _ _ => .pure trivial)
    fun _ => .pure trivial

theorem safe_replaceDeclared (hR : R.Declares) (project file : Node) (declared : Dependencies) :
    Safe R (replaceDeclared project file declared) :=
  .reader (reader_require _) fun _ => .lift _ fun _ => .lift _ fun _ => safe_applyDeltas hR ..

end Manifest

namespace Op

theorem safe_notify (n : Notice) : Safe R (notify n) := .of_runs fun _ _ => runs_notify n

theorem safe_makeDirs (p : Path) : Safe R (makeDirs p) := .of_runs fun _ _ => runs_makeDirs p

theorem safe_writeIfChanged {p : Path} {text : String} (hW : R.admits (.write p text)) :
    Safe R (writeIfChanged p text) :=
  .of_runs fun _ _ => runs_writeIfChanged hW

end Op

theorem Package.safe_update {path : Path} (hW : ∀ text, R.admits (.write path text))
    (deps : Dependencies) : Safe R (Package.update path deps) :=
  .reader (reader_isFile _) fun _ => .ite
    (.reader (reader_readObject _) fun _ => .lift _ fun _ => .ite
      ((safe_writeIfChanged (hW _)).bind fun _ => .pure _) (.pure _)) (.pure _)

/-- The regime admits that the file of the dependencies is written, and the package file beside its
directory. -/
def Regime.Files (R : Regime) (path : Path) : Prop :=
  ∀ text, R.admits (.write path text) ∧
    R.admits (.write (path.parent.parent.child "package.json") text)

namespace DepsFile

open Graph

theorem reader_directory (project : Node) : Reader (directory project) :=
  (reader_path? _).bind fun
    | some _ => .pure _
    | none => .throw _

theorem directory_eq_ok {project : Node} {p : Path} {w w' : Workspace}
    (h : (directory project).run w = .ok p w') :
    ∃ P, project.pathEntry = .path P ∧ p = P.child ".intentcode" := by
  obtain ⟨o, w₁, ho, h₁⟩ := bind_eq_ok.mp h
  cases o with
  | none => cases h₁
  | some P => cases h₁; exact ⟨P, path?_eq_ok ho, rfl⟩

theorem path_eq_ok {project : Node} {p : Path} {w w' : Workspace}
    (h : (path project).run w = .ok p w') :
    ∃ P, project.pathEntry = .path P ∧ p = (P.child ".intentcode").child "deps.json" := by
  obtain ⟨d, w₁, hd, h₁⟩ := bind_eq_ok.mp h
  obtain ⟨P, hP, rfl⟩ := directory_eq_ok hd
  cases h₁
  exact ⟨P, hP, rfl⟩

theorem reader_path (project : Node) : Reader (path project) :=
  (reader_directory _).bind fun _ => .pure _

theorem safe_synced (hR : R.Declares) (project : Node) : Safe R (synced project) :=
  (Manifest.safe_node hR _).bind fun _ => .of_reader (.lift _ _)

theorem safe_write {path : Path} (hW : R.Files path) (deps : Dependencies) :
    Safe R (write path deps) :=
  (safe_writeIfChanged (hW _).1).bind fun _ =>
    (Package.safe_update (fun text => (hW text).2) _).bind fun _ => .pure _

/-- Besides what reconciling and writing ask for, a synchronisation only changes the manifest of the
project. -/
theorem safe_sync (hR : R.Declares) {project : Node}
    (hC : ∀ old new, old.type = .deps → old.parent = some project.id → R.admits (.content old new))
    (hW : ∀ {P}, project.pathEntry = .path P → R.Files ((P.child ".intentcode").child "deps.json")) :
    Safe R (sync project) := by
  refine ⟨fun w hI hw => ?_⟩
  refine (((Manifest.safe_reconcile hR project).runs w hI).bind fun deps w₁ hw₁ hr₁ _ => ?_) hw
  refine (Manifest.runs_node hR project w₁).bind fun manifest w₂ hw₂ hr₂ hb => ?_
  obtain ⟨hstored, hkey⟩ := hb.node? hw₁.wellFormed
  refine .reader (reader_path _) fun path hpath => ?_
  obtain ⟨P, hP, rfl⟩ := path_eq_ok hpath
  have rest {w₃ : Workspace} (hr₃ : Reach R.admits w₂ w₃) : Runs R.admits w₃ (do
      if !isSynced manifest deps then
        let _ ← setJson manifest (Manifest.withTexts "synced" manifest deps)
      return ({ changed := !isSynced manifest deps
                path := (P.child ".intentcode").child "deps.json", deps } : Sync))
      fun _ _ => True := by
    refine .ite (fun _ => ?_) fun _ => .pure trivial
    refine (runs_setContent fun old new ho _ => ?_).bind fun _ _ _ _ _ => .pure trivial
    have hold := (((Handle.of_node? hw₂ hstored).reach hr₃).key ho).trans hkey
    exact hC old new (congrArg NodeKey.type hold) (congrArg NodeKey.parent hold)
  refine .reader (reader_isFile _) fun _ _ => .ite (fun _ => ?_) fun _ => rest (.refl w₂)
  exact ((safe_write (hW hP) _).runs w₂ (R.lasts hw (hr₁.trans hr₂) hI)).bind
    fun _ _ _ hr₃ _ => rest hr₃

theorem reader_readFile (path : Path) : Reader (readFile path) :=
  reader_files.bind fun _ => (Reader.lift _ _).bind fun _ => (Reader.lift _ _).bind fun _ =>
    .lift _ _

theorem safe_verify (hR : R.Declares) (project : Node) : Safe R (verify project) :=
  .reader (reader_path _) fun _ => .reader (reader_isFile _) fun _ => .ite
    (.reader (reader_readFile _) fun _ => (safe_synced hR _).bind fun _ => .ite
      ((safe_notify _).bind fun _ => .throw _) (.pure _)) (.pure _)

end DepsFile

/-! ## Projects and extensions -/

namespace Project

open Graph

/-- The types of the nodes of a project. -/
def nodeTypes : List NodeType := [.project, .specsRoot, .intentRoot, .sourceRoot]

/-- A project is made of nodes and an edge. -/
theorem safe_nodes (hN : ∀ n, n.type ∈ nodeTypes → R.admits (.node n)) (hE : ∀ e, R.admits (.edge e))
    (name : String) (path : Path) : Safe R (nodes name path) := by
  have made {type : NodeType} (ht : type ∈ nodeTypes) (n : Node) (hn : n.type = type)
      (_ : n.json = some (pathMembers path)) : R.admits (.node n) := hN n (hn ▸ ht)
  have hroot (node : Node) {type : NodeType} (ht : type ∈ nodeTypes) (name : String) (q : Path) :
      Safe R (root node type name q) := safe_getOrCreate fun n hn _ => hN n (hn ▸ ht)
  refine .transaction <| (safe_getOrCreate (made (by decide))).bind fun node =>
    .reader (reader_path? _) fun _ => ?_
  have roots : Safe R (do
      let specs ← root node .specsRoot specsName (path.child "specs")
      let intent ← root node .intentRoot intentName (path.child "intent")
      let source ← root node .sourceRoot sourceName (path.child "src")
      let _ ← link intent source .implements ""
      return ({ node, specs, intent, source } : Project)) :=
    (hroot _ (by decide) _ _).bind fun _ => (hroot _ (by decide) _ _).bind fun _ =>
      (hroot _ (by decide) _ _).bind fun _ => (safe_link hE).bind fun _ => .pure _
  exact .ite ((Safe.throw _).bind fun _ => roots) roots

theorem safe_setup (hN : ∀ n, n.type ∈ nodeTypes → R.admits (.node n)) (hE : ∀ e, R.admits (.edge e))
    (name : String) (path : Path) : Safe R (setup name path) := by
  have rest : Safe R (do
      let full := path.resolve (← Op.files).workingDirectory
      let p ← nodes name full
      for r in [p.specs, p.intent, p.source] do Op.makeDirs (← Graph.pathOf r)
      return p) :=
    .reader reader_files fun _ => (safe_nodes hN hE ..).bind fun _ => .bind
      (.forIn fun _ _ => .bind (.of_reader (reader_pathOf _)) fun _ => .once (safe_makeDirs _))
      fun _ => .pure _
  exact .ite ((Safe.throw _).bind fun _ => rest) rest

theorem reader_find? (name : String) : Reader (find? name) :=
  (reader_child? _ _ _).bind fun
    | none => .pure _
    | some _ => (reader_child? _ _ _).bind fun _ => (reader_child? _ _ _).bind fun _ =>
        (reader_child? _ _ _).bind fun _ => by
          split
          · exact .pure _
          · exact .pure _

theorem reader_require (name : String) : Reader (require name) :=
  (reader_find? _).bind fun
    | some _ => .pure _
    | none => .throw _

end Project

namespace Registry

open Graph

theorem safe_install (hN : ∀ n, n.type ≠ .deps → R.admits (.node n))
    (hC : ∀ old new, old.type ≠ .deps → R.admits (.content old new)) (project : Node)
    (e : ExtensionSpec) : Safe R (install project e) := by
  refine .transaction <| (safe_getOrCreate fun n hn _ => hN n ?_).bind fun _ =>
    safe_upsertDerived (fun n hn _ _ => hN n ?_) fun old new ho _ => hC old new ?_
  · rw [hn]; decide
  · rw [hn]; decide
  · rw [ho]; decide

/-- An extension is removed with all that is below it. -/
theorem safe_remove (hD : ∀ {w n}, R.holds w → w.tables.node? n.id = some n →
      n.type = .extension → Runs R.admits w (cascadeDelete n true) fun _ _ => True)
    (project : Node) (id : String) : Safe R (remove project id) := by
  refine .reader (reader_child? _ _ _) fun o => ?_
  cases o with
  | none => exact .pure _
  | some _ =>
      refine .reads (reader_child? _ _ _) fun w o hI ho hw => ?_
      cases o with
      | none => exact Runs.pure trivial hw
      | some n =>
          obtain ⟨hn, hk⟩ := child?_eq_ok hw ho
          exact ((hD hI hn hk).bind fun _ _ _ _ _ => .pure trivial) hw

theorem reader_installed (project : Node) : Reader (installed project) :=
  (reader_child? _ _ _).bind fun
    | none => .pure _
    | some _ => (reader_children _ _).bind fun _ => (Reader.lift _ _).bind fun _ => .pure _

end Registry

end IntentBuild
