import IntentBuild.Proofs.Graph.Outcome
import IntentBuild.Proofs.Operation.Disk
import IntentBuild.Proofs.Project

/-!
# How setting up a project ends

Setting up a project first puts its four nodes and an edge into the graph, and then makes the three
directories.  `setup_outcome` says what is there when it ends.

After a success the directories are there, and setting up the project once more changes nothing at all.
A failure undoes nothing.  Either nothing was done, because the name is blank or stands for a project
elsewhere, or the project is complete in the graph, as after a success.  It is then bound to its
directory: it can be set up there once nothing is in the way, and nowhere else.
-/

namespace IntentBuild

open Op
open Assoc (keys)

variable {w w' : Workspace} {t t' : Tables}

/-! ## Nodes and edges that were found or made -/

namespace Graph

/-- Finding or making a node leaves all others as they are. -/
theorem Found.keeps {k : NodeKey} {json : Option Members} {n m : Node} {i : String}
    (h : Found t k json n t') (hm : t.node? i = some m) : t'.node? i = some m := by
  cases h with
  | old => exact hm
  | new h _ _ _ _ =>
      obtain ⟨rfl, hi, -⟩ := Tables.insertNode_eq_ok h
      change Assoc.get? i (Assoc.set n.id n t.nodes) = some m
      rw [Assoc.get?_set, if_neg]
      · exact hm
      · rintro rfl
        exact hi (Assoc.mem_keys_of_get? hm)

theorem Found.wellFormed {k : NodeKey} {json : Option Members} {n : Node}
    (h : Found t k json n t') (ht : t.WellFormed) : t'.WellFormed := by
  cases h with
  | old => exact ht
  | new h _ _ _ _ => exact Tables.wellFormed_insertNode ht h

theorem Linked.node? {e : Edge} (h : Linked t e t') (i : String) : t'.node? i = t.node? i := by
  cases h with
  | old => rfl
  | new h _ => obtain ⟨rfl, -⟩ := Tables.insertEdge_eq_ok h; rfl

theorem Linked.get? {e : Edge} (h : Linked t e t') : Assoc.get? e.id t'.edges = some e := by
  cases h with
  | old h => exact h
  | new h _ => obtain ⟨rfl, -⟩ := Tables.insertEdge_eq_ok h; exact Assoc.get?_set_same ..

/-- An edge that is there is found. -/
theorem findEdge?_of_get? {e : Edge} {k : EdgeKey} (hw : w.Sound)
    (he : Assoc.get? e.id w.tables.edges = some e) (hk : e.key = k) :
    (findEdge? k).run w = .ok (some e) w := by
  have hi := hw.wellFormed.edges.index_eq he
  rw [show (findEdge? k).run w = (entryOf (Assoc.get? k w.tables.edgeIndex) w.tables.edges).run w
    from rfl, ← hk, hi, entryOf, he]
  rfl

end Graph

namespace Project

open Graph

variable {p q : Project} {name i : String} {path : Path}

/-! ## The project in the graph -/

/-- The second tables come from the first ones by finding or making the nodes of the project and its
edge, and nothing else. -/
inductive Completed (t : Tables) (i name : String) (path : Path) (p : Project) : Tables → Prop
  | intro {t₁ t₂ t₃ t₄ t' : Tables} {e : Edge}
      (node : Graph.Found t ⟨none, i, .project, name⟩ (some (pathMembers path)) p.node t₁)
      (place : p.node.pathEntry = .path path)
      (specs : Graph.Found t₁ ⟨some p.node.id, i, .specsRoot, specsName⟩
        (some (pathMembers (path.child "specs"))) p.specs t₂)
      (intent : Graph.Found t₂ ⟨some p.node.id, i, .intentRoot, intentName⟩
        (some (pathMembers (path.child "intent"))) p.intent t₃)
      (source : Graph.Found t₃ ⟨some p.node.id, i, .sourceRoot, sourceName⟩
        (some (pathMembers (path.child "src"))) p.source t₄)
      (key : e.key = ⟨p.intent.id, p.source.id, .implements, ""⟩)
      (edge : Linked t₄ e t') : Completed t i name path p t'

/-- The project stands in the graph, in a directory. -/
structure Stands (p : Project) (name : String) (path : Path) (w : Workspace) : Prop
    extends p.Found name w where
  /-- Its directory. -/
  place : p.node.pathEntry = .path path
  /-- The intent files implement the source files. -/
  edge : ∃ e, Assoc.get? e.id w.tables.edges = some e ∧
    e.key = ⟨p.intent.id, p.source.id, .implements, ""⟩

/-- The name stands for a node that is not the project in the directory. -/
def Elsewhere (name : String) (path : Path) (w : Workspace) : Prop :=
  ∃ n, w.tables.findNode? ⟨none, w.graph.instanceId, .project, name⟩ = some n ∧
    n.pathEntry ≠ .path path

/-- Tables to which the project was added hold it. -/
theorem Completed.stands (h : Completed t w.graph.instanceId name path p w.tables) (ht : t.WellFormed)
    (hw : w.Sound) : p.Stands name path w := by
  obtain @⟨t₁, t₂, t₃, t₄, _, e, node, place, specs, intent, source, key, edge⟩ := h
  have ht₁ := node.wellFormed ht
  have ht₂ := specs.wellFormed ht₁
  have ht₃ := intent.wellFormed ht₂
  obtain ⟨hnode, knode⟩ := node.node? ht
  obtain ⟨hspecs, kspecs⟩ := specs.node? ht₁
  obtain ⟨hintent, kintent⟩ := intent.node? ht₂
  obtain ⟨hsource, ksource⟩ := source.node? ht₃
  have stored {n : Node} {k : NodeKey} (hn : t₄.node? n.id = some n) (hk : n.key = k) :
      w.tables.findNode? k = some n :=
    (Tables.findNode?_eq_some hw.wellFormed).mpr ⟨(edge.node? n.id).trans hn, hk⟩
  exact ⟨⟨stored (source.keeps (intent.keeps (specs.keeps hnode))) knode,
    stored (source.keeps (intent.keeps hspecs)) kspecs, stored (source.keeps hintent) kintent,
    stored hsource ksource⟩, place, e, edge.get?, key⟩

/-- Where a project stands already, nothing is added to the tables. -/
theorem Completed.eq_of_stands {path' : Path} (h : Completed w.tables w.graph.instanceId name path q t)
    (hw : w.Sound) (hp : p.Stands name path' w) : q = p ∧ path = path' ∧ t = w.tables := by
  obtain ⟨node', specs', intent', source'⟩ := q
  obtain @⟨t₁, t₂, t₃, t₄, _, e, node, place, specs, intent, source, key, edge⟩ := h
  dsimp only at node place specs intent source key
  obtain ⟨rfl, rfl⟩ := node.eq_old hw.wellFormed hp.node
  obtain ⟨rfl, rfl⟩ := specs.eq_old hw.wellFormed hp.specs
  obtain ⟨rfl, rfl⟩ := intent.eq_old hw.wellFormed hp.intent
  obtain ⟨rfl, rfl⟩ := source.eq_old hw.wellFormed hp.source
  refine ⟨rfl, Node.PathEntry.path.inj (place.symm.trans hp.place), ?_⟩
  cases edge with
  | old => rfl
  | new h _ =>
      obtain ⟨d, hd, hkey⟩ := hp.edge
      obtain ⟨-, -, -, hnot⟩ := Tables.insertEdge_eq_ok h
      refine absurd ?_ hnot
      rw [key, ← hkey]
      exact Assoc.mem_keys_of_get? (hw.wellFormed.edges.index_eq hd)

/-! ## How the nodes are made -/

theorem exact_pathMembers (path : Path) :
    Json.ExactMembers ((some (pathMembers path)).getD []) := ⟨trivial, trivial⟩

/-- In a transaction a node is found or made. -/
theorem ends_found {parent : Option Node} {type : NodeType} {n : String} {q : Path}
    {F : Workspace → Prop} (hd : w.graph.depth ≠ 0)
    (hp : ∀ p, parent = some p → p.id ∈ keys w.tables.nodes) (hn : n ≠ "") :
    Ends w (getOrCreate parent type n (some (pathMembers q)))
      (fun r w' => Graph.Found w.tables ⟨parent.map Node.id, w.graph.instanceId, type, n⟩
        (some (pathMembers q)) r w'.tables) F :=
  (ends_getOrCreate hp hn (exact_pathMembers q)).never fun _ h => hd h.1

/-- In a transaction the node of a project is completed with its roots. -/
theorem ends_withRoots {node : Node} {i : String} {F : Workspace → Prop} (hd : w.graph.depth ≠ 0)
    (hi : w.graph.instanceId = i) (hstored : w.tables.node? node.id = some node)
    (hplace : node.pathEntry = .path path)
    (hnode : Graph.Found t ⟨none, i, .project, name⟩ (some (pathMembers path)) node w.tables) :
    Ends w (withRoots node path) (fun p w' => Completed t i name path p w'.tables) F := by
  have below {v : Workspace} (hv : v.tables.node? node.id = some node) :
      ∀ p, some node = some p → p.id ∈ keys v.tables.nodes := by
    rintro _ ⟨⟩
    exact Assoc.mem_keys_of_get? hv
  refine (ends_found hd (below hstored) (by decide)).bind fun specs w₂ hw₂ hk₂ hspecs => ?_
  have hd₂ : w₂.graph.depth ≠ 0 := hk₂.depth ▸ hd
  have hstored₂ := hspecs.keeps hstored
  refine (ends_found hd₂ (below hstored₂) (by decide)).bind fun intent w₃ hw₃ hk₃ hintent => ?_
  have hd₃ : w₃.graph.depth ≠ 0 := hk₃.depth ▸ hd₂
  have hstored₃ := hintent.keeps hstored₂
  refine (ends_found hd₃ (below hstored₃) (by decide)).bind fun source w₄ hw₄ hk₄ hsource => ?_
  have hd₄ : w₄.graph.depth ≠ 0 := hk₄.depth ▸ hd₃
  obtain ⟨hstoredIntent, -⟩ := hintent.node? hw₂.wellFormed
  obtain ⟨hstoredSource, -⟩ := hsource.node? hw₃.wellFormed
  refine ((ends_link (Assoc.mem_keys_of_get? (hsource.keeps hstoredIntent))
    (Assoc.mem_keys_of_get? hstoredSource)).never fun _ h => hd₄ h.1).bind
      fun e w₅ hw₅ hk₅ hlink => .pure ?_
  have hi₂ := hk₂.reach.instanceId_eq
  have hi₃ := hk₃.reach.instanceId_eq
  rw [hi] at hspecs
  rw [hi₂, hi] at hintent
  rw [hi₃, hi₂, hi] at hsource
  exact ⟨hnode, hplace, hspecs, hintent, hsource, hlink.1, hlink.2⟩

/-- In a transaction the project is completed in the graph, unless its name stands for another one. -/
theorem ends_nodes_body (hd : w.graph.depth ≠ 0) (hname : name ≠ "")
    (hpath : ∀ n ∈ path.names, Path.IsName n) :
    Ends w (do
      let node ← getOrCreate none .project name (some (pathMembers path))
      let known ← path? node
      if known != some path then throw (.project (.elsewhere name known))
      withRoots node path)
    (fun p w' => Completed w.tables w.graph.instanceId name path p w'.tables)
    fun w' => w'.tables = w.tables ∧ Elsewhere name path w := by
  intro hw
  refine (ends_found hd (by rintro _ ⟨⟩) hname).bind (fun node w₁ hw₁ hk₁ hnode => ?_) hw
  obtain ⟨hstored, -⟩ := hnode.node? hw.wellFormed
  have hd₁ : w₁.graph.depth ≠ 0 := hk₁.depth ▸ hd
  have hplace : node.pathEntry = .path path ∨ w₁.tables = w.tables ∧ Elsewhere name path w := by
    by_cases h : node.pathEntry = .path path
    · exact .inl h
    · refine .inr ?_
      generalize w₁.tables = t₁ at hnode
      cases hnode with
      | old hold => exact ⟨rfl, node, hold, h⟩
      | new _ _ hj _ _ => exact absurd (pathEntry_of_json hj hpath) h
  rcases hplace with hplace | helsewhere
  · refine .reads (path?_run hplace w₁) ?_
    simpa using ends_withRoots hd₁ hk₁.reach.instanceId_eq hstored hplace hnode
  · refine .reader (reader_path? node) helsewhere fun known hknown => .ite (fun _ => ?_) fun hsame => ?_
    · exact Ends.bind (Q := fun _ _ => False) (.throw _ helsewhere) fun _ _ _ _ h => h.elim
    · have hsame : known = some path := by simpa using hsame
      subst hsame
      exact ends_withRoots hd₁ hk₁.reach.instanceId_eq hstored (path?_eq_ok hknown) hnode

/-- The project is completed in the graph, whether it can be written or not, unless the name stands for
another one. -/
theorem ends_nodes (hname : name ≠ "") (hpath : ∀ n ∈ path.names, Path.IsName n) :
    Ends w (nodes name path)
      (fun p w' => Completed w.tables w.graph.instanceId name path p w'.tables)
      fun w' => (w'.tables = w.tables ∧ Elsewhere name path w) ∨
        ∃ p, Completed w.tables w.graph.instanceId name path p w'.tables := by
  refine Ends.transaction (fun hr h => hr.tables_of_quiet ▸ h) ?_ (fun _ p _ h => .inr ⟨p, h⟩)
    fun w₀ _ hr hd => ?_
  · intro v v' hr h
    rw [hr.tables_of_quiet]
    exact h
  · have hbody := ends_nodes_body (w := w₀) (by omega) hname hpath
    rw [Elsewhere, hr.tables_of_quiet, hr.instanceId_eq] at hbody
    exact hbody.weaken (fun _ _ _ h => h) fun _ _ h => .inl h

/-- Where the project stands its nodes are given, and nothing changes where nothing is left to write. -/
theorem nodes_run (hw : w.Sound) (hp : p.Stands name path w)
    (hs : w.graph.depth = 0 → w.graph.unsaved = false) : (nodes name path).run w = .ok p w := by
  have hw₁ : (w.atDepth (w.graph.depth + 1)).Sound := ⟨hw.wellFormed, hw.spent, hw.exact⟩
  have old {parent : Option Node} {type : NodeType} {n : String} {json : Option Members} {r : Node}
      (h : w.tables.findNode? ⟨parent.map Node.id, w.graph.instanceId, type, n⟩ = some r) :
      (getOrCreate parent type n json).run (w.atDepth (w.graph.depth + 1)) =
        .ok r (w.atDepth (w.graph.depth + 1)) :=
    getOrCreate_old h fun hd => absurd hd (Nat.succ_ne_zero _)
  have hnode : (getOrCreate none .project name (some (pathMembers path))).run
      (w.atDepth (w.graph.depth + 1)) = .ok p.node (w.atDepth (w.graph.depth + 1)) := old hp.node
  have hroot {type : NodeType} {n : String} {q : Path} {r : Node}
      (h : w.tables.findNode? ⟨some p.node.id, w.graph.instanceId, type, n⟩ = some r) :
      (root p.node type n q).run (w.atDepth (w.graph.depth + 1)) =
        .ok r (w.atDepth (w.graph.depth + 1)) := old h
  have hpath := path?_run hp.place (w.atDepth (w.graph.depth + 1))
  obtain ⟨e, he, hk⟩ := hp.edge
  have hlink : (link p.intent p.source .implements "").run (w.atDepth (w.graph.depth + 1)) =
      .ok e (w.atDepth (w.graph.depth + 1)) := by
    rw [link, bind_ok (findEdge?_of_get? hw₁ he hk)]
    rfl
  have hend : endTransaction.run (w.atDepth (w.graph.depth + 1)) = .ok ⟨⟩ w := by
    rw [endTransaction_eq, if_neg]
    · rfl
    · rintro ⟨hd, hu⟩
      have hu : w.graph.unsaved = true := hu
      rw [hs hd] at hu
      cases hu
  rw [nodes, transaction_eq, bind_ok hnode, bind_ok hpath]
  simp only [bne_self_eq_false, Bool.false_eq_true, if_false]
  rw [bind_ok (hroot hp.specs), bind_ok (hroot hp.intent), bind_ok (hroot hp.source), bind_ok hlink]
  simp only [EStateM.run_pure, hend]

theorem find?_of_found (hp : p.Found name w) : (find? name).run w = .ok (some p) w := by
  rw [find?, bind_ok (child?_run ..)]
  simp only [Option.map_none, hp.node]
  rw [bind_ok (child?_run ..), bind_ok (child?_run ..), bind_ok (child?_run ..)]
  simp only [Option.map_some, hp.specs, hp.intent, hp.source]
  rfl

/-! ## The directories -/

/-- The roots of the project, in the order in which their directories are made. -/
def roots (p : Project) : List Node := [p.specs, p.intent, p.source]

/-- Makes the directories of some nodes. -/
def makeDirectories (rs : List Node) : Op Unit := do
  for r in rs do makeDirs (← pathOf r)

/-- The directory of a node is there, with all directories above it. -/
def HasDirectory (w : Workspace) (r : Node) : Prop :=
  ∃ q, r.pathEntry = .path q ∧ ∀ k, k <+: w.files.key q → w.files.entryAt k = some .dir

/-- No file stands where the directory of a node or one above it is to be. -/
def HasRoom (w : Workspace) (r : Node) : Prop :=
  ∃ q, r.pathEntry = .path q ∧ ∀ k, k <+: w.files.key q → w.files.isFileAt k = false

theorem HasDirectory.keeps {r : Node} (h : HasDirectory w r) (hk : Keeps w w') : HasDirectory w' r := by
  obtain ⟨q, hq, hdir⟩ := h
  exact ⟨q, hq, fun k hpre => hk.reach.dir (hdir k (hk.reach.key_eq q ▸ hpre))⟩

theorem makeDirectories_cons (r : Node) (rs : List Node) :
    makeDirectories (r :: rs) =
      pathOf r >>= fun q => makeDirs q >>= fun _ => makeDirectories rs := by
  simp only [makeDirectories, List.forIn_cons, bind_assoc, pure_bind]

/-- The second workspace differs from the first one in its files only. -/
def FilesOnly (w w' : Workspace) : Prop := ∃ f, w' = { w with files := f }

theorem FilesOnly.refl (w : Workspace) : FilesOnly w w := ⟨w.files, rfl⟩

theorem FilesOnly.trans {w'' : Workspace} (h : FilesOnly w w') (h' : FilesOnly w' w'') :
    FilesOnly w w'' := by
  obtain ⟨f, rfl⟩ := h
  obtain ⟨f', rfl⟩ := h'
  exact ⟨f', rfl⟩

theorem ends_makeDirs {r : Node} {q : Path} (hq : r.pathEntry = .path q) :
    Ends w (makeDirs q) (fun _ w' => FilesOnly w w' ∧ HasDirectory w' r) (FilesOnly w) := by
  intro _
  cases hm : w.files.makeDirs q with
  | ok f =>
      rw [makeDirs_run hm]
      refine ⟨.of_quiet (e := .makeDirs) trivial (.makeDirs hm) rfl, ⟨f, rfl⟩, q, hq, fun k hk => ?_⟩
      exact FileTree.entryAt_makeDirs hm (FileTree.key_makeDirs hm q ▸ hk)
  | error e =>
      have hrun : (makeDirs q).run w = .error (.file e) w := by
        have hfiles : files.run w = .ok w.files w := rfl
        rw [makeDirs, bind_ok hfiles, hm]
        rfl
      rw [hrun]
      exact ⟨.refl w, .refl w⟩

/-- Only the files change when directories are made, and the directories are there afterwards. -/
theorem ends_makeDirectories (rs : List Node) :
    Ends w (makeDirectories rs) (fun _ w' => FilesOnly w w' ∧ ∀ r ∈ rs, HasDirectory w' r)
      (FilesOnly w) := by
  induction rs generalizing w with
  | nil => exact .pure ⟨.refl w, by simp⟩
  | cons r rs ih =>
      rw [makeDirectories_cons]
      refine .reader (reader_pathOf r) (.refl w) fun q hq => ?_
      refine (ends_makeDirs (pathOf_eq_ok hq)).bind fun _ w₁ _ _ h => ?_
      exact ih.weaken
        (fun _ w' hk hrs => ⟨h.1.trans hrs.1, List.forall_mem_cons.mpr ⟨h.2.keeps hk, hrs.2⟩⟩)
        fun w' _ hf => h.1.trans hf

/-- Directories that are there are left alone. -/
theorem makeDirectories_run {rs : List Node} (h : ∀ r ∈ rs, HasDirectory w r) :
    (makeDirectories rs).run w = .ok ⟨⟩ w := by
  induction rs with
  | nil => rfl
  | cons r rs ih =>
      obtain ⟨⟨q, hq, hdir⟩, hrs⟩ := List.forall_mem_cons.mp h
      rw [makeDirectories_cons, bind_ok (pathOf_run hq w),
        bind_ok (makeDirs_run (FileTree.makeDirs_of_dirs hdir))]
      exact ih hrs

/-- Making directories puts no file anywhere. -/
theorem HasRoom.makeDirs {r : Node} {q : Path} {f : FileTree} (h : HasRoom w r)
    (hf : w.files.makeDirs q = .ok f) : HasRoom { w with files := f } r := by
  obtain ⟨d, hd, hroom⟩ := h
  refine ⟨d, hd, fun k hk => ?_⟩
  rw [FileTree.key_makeDirs hf] at hk
  have hk := hroom k hk
  rw [FileTree.isFileAt] at hk ⊢
  rw [FileTree.makeDirs_eq_ok hf, FileTree.entryAt_addDirs]
  cases he : w.files.entryAt k with
  | some e => rw [he] at hk; exact hk
  | none => by_cases hpre : k <+: w.files.key q <;> simp [hpre]

/-- Directories are made where there is room for them. -/
theorem makeDirectories_of_room {rs : List Node} (h : ∀ r ∈ rs, HasRoom w r) :
    ∃ w', (makeDirectories rs).run w = .ok ⟨⟩ w' := by
  induction rs generalizing w with
  | nil => exact ⟨w, rfl⟩
  | cons r rs ih =>
      obtain ⟨⟨q, hq, hroom⟩, hrs⟩ := List.forall_mem_cons.mp h
      have hstarts : (FileTree.starts (w.files.key q)).any w.files.isFileAt = false :=
        List.any_eq_false.mpr fun k hk => by
          rw [hroom k (FileTree.mem_starts.mp (List.mem_append_left _ hk))]
          exact Bool.false_ne_true
      have hf : w.files.makeDirs q = .ok (w.files.addDirs (w.files.key q)) := by
        simp only [FileTree.makeDirs, hroom _ List.prefix_rfl, hstarts, Bool.false_eq_true, if_false]
      rw [makeDirectories_cons, bind_ok (pathOf_run hq w), bind_ok (makeDirs_run hf)]
      exact ih fun s hs => (hrs s hs).makeDirs hf

/-! ## Setting up -/

theorem setup_run {s : String} (hname : Text.hasInk name = true) :
    (setup name (.ofText s)).run w =
      (nodes name ((Path.ofText s).resolve w.files.workingDirectory) >>= fun p =>
        makeDirectories p.roots >>= fun _ => pure p).run w := by
  have hfiles : files.run w = .ok w.files w := rfl
  rw [setup, hname]
  simp only [Bool.not_true, Bool.false_eq_true, if_false]
  rw [bind_ok hfiles]
  simp only [makeDirectories, roots, bind_assoc, pure_bind]

theorem ne_empty_of_hasInk (hname : Text.hasInk name = true) : name ≠ "" := by
  rintro rfl
  exact absurd hname (by decide)

/-- The directory of a project has proper names, as the working directory has. -/
theorem isName_resolve (hw : ∀ n ∈ w.files.workingDirectory.names, Path.IsName n) (s : String) :
    ∀ n ∈ ((Path.ofText s).resolve w.files.workingDirectory).names, Path.IsName n :=
  FileTree.isName_of_mem_key hw fun _ hn => Path.isName_of_mem_ofText hn

/-- Setting up ends with the project in the graph, which has been written, and its directories on disk.
When it fails the project is in the graph all the same, unless its name stands for another one. -/
theorem ends_setup {s : String} (hname : Text.hasInk name = true)
    (hwd : ∀ n ∈ w.files.workingDirectory.names, Path.IsName n) :
    Ends w (setup name (.ofText s))
      (fun p w' => Completed w.tables w.graph.instanceId name
          ((Path.ofText s).resolve w.files.workingDirectory) p w'.tables ∧
        (w'.graph.depth = 0 → w'.graph.unsaved = false) ∧ ∀ r ∈ p.roots, HasDirectory w' r)
      fun w' => (w'.tables = w.tables ∧
          Elsewhere name ((Path.ofText s).resolve w.files.workingDirectory) w) ∨
        ∃ p, Completed w.tables w.graph.instanceId name
          ((Path.ofText s).resolve w.files.workingDirectory) p w'.tables := by
  intro hw
  rw [setup_run hname]
  refine (ends_nodes (ne_empty_of_hasInk hname) (isName_resolve hwd s)).bind_run
    (fun p w₁ hrun _ _ hp => ?_) hw
  refine ((ends_makeDirectories p.roots).weaken (fun _ _ _ h => h) ?_).bind
    fun _ w₂ _ _ h => .pure ?_
  · rintro w' - ⟨f, rfl⟩
    exact .inr ⟨p, hp⟩
  · obtain ⟨⟨f, rfl⟩, hdirs⟩ := h
    have hsaved : w₁.graph.depth = 0 → w₁.graph.unsaved = false := unsaved_of_transaction hrun
    exact ⟨hp, hsaved, hdirs⟩

/-- Where the project stands and its directories are there, setting it up changes nothing. -/
theorem setup_again {s : String} (hname : Text.hasInk name = true) (hw : w.Sound)
    (hp : p.Stands name ((Path.ofText s).resolve w.files.workingDirectory) w)
    (hs : w.graph.depth = 0 → w.graph.unsaved = false) (hdirs : ∀ r ∈ p.roots, HasDirectory w r) :
    (setup name (.ofText s)).run w = .ok p w := by
  rw [setup_run hname, bind_ok (nodes_run hw hp hs), bind_ok (makeDirectories_run hdirs)]
  rfl

/-- The name is bound to the project in the directory. -/
structure Bound (p : Project) (name : String) (path : Path) (w : Workspace) : Prop where
  /-- The project is found. -/
  found : (find? name).run w = .ok (some p) w
  /-- Setting up the name anywhere changes nothing in the graph. -/
  kept : ∀ s : String, ((setup name (.ofText s)).after w).tables = w.tables
  /-- In another directory it fails. -/
  only : ∀ (s : String) (q : Project) (w' : Workspace), (setup name (.ofText s)).run w = .ok q w' →
    q = p ∧ (Path.ofText s).resolve w.files.workingDirectory = path
  /-- In the directory it gives the project, once the graph has been written and no file is in the
  way. -/
  again : ∀ s : String, (Path.ofText s).resolve w.files.workingDirectory = path →
    (w.graph.depth = 0 → w.graph.unsaved = false) → (∀ r ∈ p.roots, HasRoom w r) →
      ∃ w', (setup name (.ofText s)).run w = .ok p w'

/-- A project that stands in the graph binds its name. -/
theorem Stands.bound (hp : p.Stands name path w) (hw : w.Sound) (hname : Text.hasInk name = true)
    (hwd : ∀ n ∈ w.files.workingDirectory.names, Path.IsName n) : p.Bound name path w where
  found := find?_of_found hp.toFound
  kept s := by
    refine ((Ends.after (F := fun w' => w'.tables = w.tables)
      ((ends_setup (s := s) hname hwd).weaken (fun q w' _ h => ?_) fun w' _ h => ?_)) hw).2
    · exact (h.1.eq_of_stands hw hp).2.2
    · rcases h with h | ⟨q, h⟩
      · exact h.1
      · exact (h.eq_of_stands hw hp).2.2
  only s q w' h := by
    have hends := ends_setup (s := s) hname hwd hw
    rw [h] at hends
    obtain ⟨rfl, hpath, -⟩ := hends.2.1.eq_of_stands hw hp
    exact ⟨rfl, hpath⟩
  again s hs hsaved hroom := by
    obtain ⟨w', hw'⟩ := makeDirectories_of_room hroom
    refine ⟨w', ?_⟩
    rw [setup_run hname, bind_ok (nodes_run hw (hs ▸ hp) hsaved), bind_ok hw']
    rfl

/-! ## The outcome -/

/-- A project is not completed where its name stands for another one. -/
theorem Completed.not_elsewhere (h : Completed w.tables w.graph.instanceId name path p t)
    (hw : w.Sound) : ¬ Elsewhere name path w := by
  rintro ⟨n, hn, hne⟩
  obtain ⟨node, place, -⟩ := h
  obtain ⟨rfl, -⟩ := node.eq_old hw.wellFormed hn
  exact hne place

/-- What `setup` leaves behind when it succeeds. -/
structure SetUp (p : Project) (name s : String) (w : Workspace) : Prop where
  /-- The directories of the roots are there. -/
  directories : ∀ r ∈ p.roots, HasDirectory w r
  /-- The project is found. -/
  found : (find? name).run w = .ok (some p) w
  /-- Setting it up once more gives it, and nothing changes. -/
  again : (setup name (.ofText s)).run w = .ok p w

theorem setUp_of_run {s : String} (hw : w.Sound)
    (hwd : ∀ n ∈ w.files.workingDirectory.names, Path.IsName n) (hname : Text.hasInk name = true)
    (h : (setup name (.ofText s)).run w = .ok p w') : p.SetUp name s w' := by
  have hends := ends_setup (s := s) hname hwd hw
  rw [h] at hends
  obtain ⟨hk, hp, hsaved, hdirs⟩ := hends
  have hw' := hk.reach.sound hw
  have hstands : p.Stands name ((Path.ofText s).resolve w'.files.workingDirectory) w' := by
    rw [hk.reach.workingDirectory_eq]
    exact Completed.stands (hk.reach.instanceId_eq ▸ hp) hw.wellFormed hw'
  exact ⟨hdirs, find?_of_found hstands.toFound, setup_again hname hw' hstands hsaved hdirs⟩

theorem setup_blankName {s : String} (hname : Text.hasInk name = false) :
    (setup name (.ofText s)).run w = .error (.project .blankName) w := by
  rw [setup, hname]
  rfl

/-- After a success the project is complete in the graph with nothing else added, its directories are
there, it is found, and setting it up once more changes nothing.

A blank name, and one that stands for another project, make it fail and leave the graph as it was.  After
any other failure, such as a directory that cannot be made, the project is complete in the graph as after
a success, and nothing takes it out again.  From then on its name is bound to its directory. -/
theorem setup_outcome (hw : w.Sound) (hwd : ∀ n ∈ w.files.workingDirectory.names, Path.IsName n)
    (name s : String) :
    (∀ p w', (setup name (.ofText s)).run w = .ok p w' →
      Completed w.tables w.graph.instanceId name ((Path.ofText s).resolve w.files.workingDirectory) p
        w'.tables ∧ p.SetUp name s w') ∧
    (Text.hasInk name = false ∨
        Elsewhere name ((Path.ofText s).resolve w.files.workingDirectory) w →
      ∃ e w', (setup name (.ofText s)).run w = .error e w' ∧ w'.tables = w.tables) ∧
    (∀ e w', (setup name (.ofText s)).run w = .error e w' →
      Text.hasInk name = true → ¬ Elsewhere name ((Path.ofText s).resolve w.files.workingDirectory) w →
      ∃ p, Completed w.tables w.graph.instanceId name
          ((Path.ofText s).resolve w.files.workingDirectory) p w'.tables ∧
        ∀ v : Workspace, v.Sound → v.tables = w'.tables → v.graph.instanceId = w.graph.instanceId →
          (∀ n ∈ v.files.workingDirectory.names, Path.IsName n) →
          p.Bound name ((Path.ofText s).resolve w.files.workingDirectory) v) := by
  cases hname : Text.hasInk name with
  | false =>
      refine ⟨fun p w' h => ?_, fun _ => ⟨_, w, setup_blankName hname, rfl⟩, fun _ _ _ h => nomatch h⟩
      rw [setup_blankName hname] at h
      cases h
  | true =>
      have hends := ends_setup (s := s) hname hwd hw
      cases hrun : (setup name (.ofText s)).run w with
      | ok p w' =>
          rw [hrun] at hends
          have hp := hends.2.1
          refine ⟨fun q v h => ?_, fun h => ?_, fun _ _ h => nomatch h⟩
          · cases h
            exact ⟨hp, setUp_of_run hw hwd hname hrun⟩
          · exact absurd (h.resolve_left Bool.noConfusion) (hp.not_elsewhere hw)
      | error e w' =>
          rw [hrun] at hends
          refine ⟨fun _ _ h => (nomatch h), fun h => ⟨e, w', rfl, ?_⟩, fun _ v h _ hnot => ?_⟩
          · rcases hends.2 with h' | ⟨p, hp⟩
            · exact h'.1
            · exact absurd (h.resolve_left Bool.noConfusion) (hp.not_elsewhere hw)
          · cases h
            obtain ⟨p, hp⟩ := hends.2.resolve_left fun h' => hnot h'.2
            refine ⟨p, hp, fun v hv htables hi hvd => ?_⟩
            rw [← htables, ← hi] at hp
            exact (hp.stands hw.wellFormed hv).bound hv hname hvd

theorem isName_blank : ∀ n ∈ blank.files.workingDirectory.names, Path.IsName n :=
  fun _ hn => Path.isName_of_mem_ofText hn

/-- In the empty directory the project is set up. -/
theorem setup_outcome_blank : blank.Sound ∧
    (∀ n ∈ blank.files.workingDirectory.names, Path.IsName n) ∧
    ∃ p, (setup "demo" (.ofText "/work/demo")).run blank = .ok p sample ∧
      p.SetUp "demo" "/work/demo" sample := by
  obtain ⟨p, hrun⟩ := setup_blank
  exact ⟨sound_blank, isName_blank, p, hrun,
    ((setup_outcome sound_blank isName_blank "demo" "/work/demo").1 p sample hrun).2⟩

/-- A file stands where the directory of the project is to be. -/
def obstructed : Workspace :=
  { blank with files := blank.files.putAt ["work", "demo"] (.file (FileTree.textContent "") 0) }

/-- The project that cannot be made is in the graph all the same, and it cannot be set up elsewhere any
more, where it could have been before. -/
theorem setup_obstructed : obstructed.Sound ∧
    (∀ p w', (setup "demo" (.ofText "/work/demo")).run obstructed ≠ .ok p w') ∧
    ((setup "demo" (.ofText "/work/demo")).after obstructed).tables ≠ obstructed.tables ∧
    (∃ p w', (setup "demo" (.ofText "/work/other")).run obstructed = .ok p w') ∧
    ∀ p w', (setup "demo" (.ofText "/work/other")).run
      ((setup "demo" (.ofText "/work/demo")).after obstructed) ≠ .ok p w' := by
  have never {x : Op Project} {w : Workspace} (h : x.gives w (fun _ _ => true) = false) (p : Project)
      (w' : Workspace) : x.run w ≠ .ok p w' := fun hrun => by
    rw [gives_eq_true.mpr ⟨p, w', hrun, rfl⟩] at h
    cases h
  obtain ⟨hfails, hsome, hok, helsewhere⟩ :
      (setup "demo" (.ofText "/work/demo")).gives obstructed (fun _ _ => true) = false ∧
      ((setup "demo" (.ofText "/work/demo")).after obstructed).tables.allNodes.isEmpty = false ∧
      (setup "demo" (.ofText "/work/other")).gives obstructed (fun _ _ => true) = true ∧
      (setup "demo" (.ofText "/work/other")).gives
        ((setup "demo" (.ofText "/work/demo")).after obstructed) (fun _ _ => true) = false := by
    decide +kernel
  refine ⟨⟨sound_blank.wellFormed, sound_blank.spent, sound_blank.exact⟩, never hfails, fun h => ?_, ?_,
    never helsewhere⟩
  · have hnone : obstructed.tables.allNodes.isEmpty = true := rfl
    rw [h, hnone] at hsome
    cases hsome
  · obtain ⟨p, w', hrun, -⟩ := gives_eq_true.mp hok
    exact ⟨p, w', hrun⟩

end Project

end IntentBuild
