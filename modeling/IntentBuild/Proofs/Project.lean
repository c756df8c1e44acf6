import IntentBuild.Proofs.Graph.Place

/-!
# Projects in the graph

A project that is found stands at four addresses (`Project.Found`).  Where its directories lie side
by side, it is `Placed`.  A project that is set up anew is found and placed, and only its roots are
below it (`setup_eq_ok`).
-/

namespace IntentBuild

open Op

/-- The node is one of a project. -/
structure Node.IsProject (n : Node) : Prop where
  /-- It is a root. -/
  parent : n.parent = none
  /-- It has the type of projects. -/
  type : n.type = .project

namespace Project

/-- The directories of the project lie where `Project.setup` puts them. -/
structure Placed (p : Project) (P : Path) : Prop where
  /-- The directory of the project. -/
  node : p.node.pathEntry = .path P
  /-- The directory of the specifications. -/
  specs : p.specs.pathEntry = .path (P.child "specs")
  /-- The directory of the intent files. -/
  intent : p.intent.pathEntry = .path (P.child "intent")
  /-- The directory of the source files. -/
  source : p.source.pathEntry = .path (P.child "src")

/-- The nodes of the project stand in the graph. -/
structure Found (p : Project) (name : String) (w : Workspace) : Prop where
  /-- The project. -/
  node : w.tables.findNode? ⟨none, w.graph.instanceId, .project, name⟩ = some p.node
  /-- The root of the specifications. -/
  specs : w.tables.findNode? ⟨some p.node.id, w.graph.instanceId, .specsRoot, specsName⟩ =
    some p.specs
  /-- The root of the intent files. -/
  intent : w.tables.findNode? ⟨some p.node.id, w.graph.instanceId, .intentRoot, intentName⟩ =
    some p.intent
  /-- The root of the source files. -/
  source : w.tables.findNode? ⟨some p.node.id, w.graph.instanceId, .sourceRoot, sourceName⟩ =
    some p.source

variable {p : Project} {name : String} {w w' : Workspace}

theorem child?_run (parent : Option Node) (type : NodeType) (name : String) (w : Workspace) :
    (Graph.child? parent type name).run w =
      .ok (w.tables.findNode? ⟨parent.map Node.id, w.graph.instanceId, type, name⟩) w := rfl

theorem find?_eq_ok (h : (find? name).run w = .ok (some p) w') : p.Found name w := by
  rw [find?, bind_ok (child?_run ..)] at h
  cases hn : w.tables.findNode? ⟨none, w.graph.instanceId, .project, name⟩ with
  | none =>
      simp only [Option.map_none, hn] at h
      cases h
  | some n =>
      simp only [Option.map_none, hn] at h
      rw [bind_ok (child?_run ..), bind_ok (child?_run ..), bind_ok (child?_run ..)] at h
      simp only [Option.map_some] at h
      split at h
      · cases h
        exact ⟨hn, ‹_›, ‹_›, ‹_›⟩
      · cases h

theorem require_eq_ok (h : (require name).run w = .ok p w') : w' = w ∧ p.Found name w := by
  refine ⟨(reader_require name).eq h, ?_⟩
  obtain ⟨o, w₁, ho, h₁⟩ := bind_eq_ok.mp h
  cases o with
  | none => cases h₁
  | some q =>
      cases h₁
      exact find?_eq_ok ho

/-- Only the graph counts. -/
theorem Found.congr (h : p.Found name w) (hg : w'.graph = w.graph) : p.Found name w' := by
  obtain ⟨hnode, hspecs, hintent, hsource⟩ := h
  rw [Workspace.tables, ← hg] at hnode hspecs hintent hsource
  exact ⟨hnode, hspecs, hintent, hsource⟩

theorem Found.stored (h : p.Found name w) (hw : w.Sound) : w.tables.node? p.node.id = some p.node :=
  ((Tables.findNode?_eq_some hw.wellFormed).mp h.node).1

theorem Found.isProject (h : p.Found name w) (hw : w.Sound) : p.node.IsProject := by
  have hkey := ((Tables.findNode?_eq_some hw.wellFormed).mp h.node).2
  exact ⟨congrArg NodeKey.parent hkey, congrArg NodeKey.type hkey⟩

end Project

/-! ## Setting up -/

/-- Only nodes and edges come. -/
def Event.Grows : Event → Prop
  | .node _ | .edge _ => True
  | _ => False

/-- A node stays where only nodes and edges come. -/
theorem lasts_node? (i : String) (n : Node) :
    Lasts Event.Grows fun w => w.tables.node? i = some n := by
  intro e w w' he hw h hn
  cases h with
  | @node _ m t s h hs hj _ =>
      obtain ⟨rfl, -⟩ := Tables.insertNode_eq_ok h
      change Assoc.get? i (Assoc.set m.id m w.tables.nodes) = some n
      rw [Assoc.get?_set, if_neg]
      · exact hn
      · rintro rfl
        exact hs.fresh (hw.spent (.inl (Assoc.mem_keys_of_get? hn)))
  | edge h => obtain ⟨rfl, -⟩ := Tables.insertEdge_eq_ok h; exact hn
  | content | dropNode | dropEdge | record | dropRecord =>
      rcases he with he | he <;> cases he
  | _ => exact hn

namespace Tables

/-- Below the node stand only nodes of the types. -/
def Bears (t : Tables) (id : String) (types : List NodeType) : Prop :=
  ∀ {m : Node}, t.node? m.id = some m → m.parent = some id → m.type ∈ types

end Tables

namespace Project

open Graph

variable {w w' : Workspace} {p q : Project} {name : String} {path : Path} {node : Node}

theorem pathEntry_of_json {n : Node} {q : Path} (hj : n.json = some (pathMembers q))
    (hq : ∀ m ∈ q.names, Path.IsName m) : n.pathEntry = .path q := by
  have htext : q.text ≠ "" := by
    intro htext
    have h := Path.ofText_text hq
    rw [htext] at h
    rw [← h] at htext
    exact absurd htext (by decide +kernel)
  have hmembers : n.members = [("path", .str q.text)] := by rw [Node.members, hj]; rfl
  unfold Node.pathEntry
  rw [hmembers]
  simp [Assoc.get?, Node.isBlankPath, htext, Path.ofText_text hq]

theorem Found.quiet (h : p.Found name w)
    (hr : Reach Event.None w w') : p.Found name w' := by
  obtain ⟨h₁, h₂, h₃, h₄⟩ := h
  rw [← hr.tables_of_quiet, ← hr.instanceId_eq] at h₁ h₂ h₃ h₄
  exact ⟨h₁, h₂, h₃, h₄⟩

/-- A name leads to one project. -/
theorem Found.unique (hp : p.Found name w) (hq : q.Found name w) : p = q := by
  obtain ⟨n, specs, intent, source⟩ := p
  obtain ⟨n', specs', intent', source'⟩ := q
  obtain ⟨h₁, h₂, h₃, h₄⟩ := hp
  obtain ⟨h₁', h₂', h₃', h₄'⟩ := hq
  dsimp only at h₁ h₂ h₃ h₄ h₁' h₂' h₃' h₄'
  rw [h₁, Option.some.injEq] at h₁'
  subst h₁'
  rw [h₂, Option.some.injEq] at h₂'
  rw [h₃, Option.some.injEq] at h₃'
  rw [h₄, Option.some.injEq] at h₄'
  rw [h₂', h₃', h₄']

/-- A root that is not there yet is made with its path. -/
theorem runs_root {type : NodeType} {types : List NodeType} {q : Path}
    (hq : ∀ m ∈ q.names, Path.IsName m) (hnew : type ∉ types)
    (hb : w.tables.Bears node.id types) :
    Runs Event.Grows w (root node type name q) fun r w' =>
      w'.tables.node? r.id = some r ∧ r.key = ⟨some node.id, w.graph.instanceId, type, name⟩ ∧
        r.pathEntry = .path q ∧ w'.tables.Bears node.id (type :: types) := by
  intro hw
  have hget : Runs Event.Grows w (root node type name q) _ := runs_getOrCreate fun _ _ _ _ => trivial
  refine hget.weaken (fun r w' hr h => ?_) hw
  obtain ⟨hstored, hkey⟩ := h.node? hw.wellFormed
  refine ⟨hstored, hkey, ?_⟩
  generalize w'.tables = t at h
  cases h with
  | old h =>
      obtain ⟨hold, -⟩ := (Tables.findNode?_eq_some hw.wellFormed).mp h
      have htype : r.type ∈ types := hb hold (congrArg NodeKey.parent hkey)
      rw [show r.type = type from congrArg NodeKey.type hkey] at htype
      exact absurd htype hnew
  | new h _ hj _ _ =>
      refine ⟨pathEntry_of_json hj hq, fun {m} hm hparent => ?_⟩
      obtain ⟨ht, -⟩ := Tables.insertNode_eq_ok h
      rw [ht] at hm
      change Assoc.get? m.id (Assoc.set r.id r w.tables.nodes) = some m at hm
      rw [Assoc.get?_set] at hm
      split at hm
      · rw [Option.some.injEq] at hm
        rw [← hm, show r.type = type from congrArg NodeKey.type hkey]
        exact .head _
      · exact .tail _ (hb hm hparent)


/-- The types of the roots of a project. -/
def rootTypes : List NodeType := [.sourceRoot, .intentRoot, .specsRoot]

/-- Nothing is below the node of a project that is new. -/
theorem bears_of_found {node : Node} {o : Option Members} {t : Tables} (hwf : w.tables.WellFormed)
    (hnew : w.tables.findNode? ⟨none, w.graph.instanceId, .project, name⟩ = none)
    (hnode : Graph.Found w.tables ⟨none, w.graph.instanceId, .project, name⟩ o node t) :
    t.Bears node.id [] := by
  obtain ⟨-, hkey⟩ := hnode.node? hwf
  cases hnode with
  | old h => exact absurd (hnew.symm.trans h) nofun
  | new h _ _ _ _ =>
      obtain ⟨rfl, hfresh, -⟩ := Tables.insertNode_eq_ok h
      intro m hm hparent
      change Assoc.get? m.id (Assoc.set node.id node w.tables.nodes) = some m at hm
      rw [Assoc.get?_set] at hm
      split at hm
      · rw [Option.some.injEq] at hm
        rw [← hm, show node.parent = none from congrArg NodeKey.parent hkey] at hparent
        cases hparent
      · exact absurd (hwf.parents hm hparent) hfresh

/-- The project of a node, with its roots in a directory, which are made if need be. -/
def withRoots (node : Node) (path : Path) : Op Project := do
  let specs ← root node .specsRoot specsName (path.child "specs")
  let intent ← root node .intentRoot intentName (path.child "intent")
  let source ← root node .sourceRoot sourceName (path.child "src")
  let _ ← link intent source .implements ""
  return { node, specs, intent, source }

/-- The roots of a node with nothing below it are found and placed, and nothing else is below it. -/
theorem runs_withRoots {node : Node} (hw : w.Sound) (hstored : w.tables.node? node.id = some node)
    (hkey : node.key = ⟨none, w.graph.instanceId, .project, name⟩) (hpath : node.pathEntry = .path path)
    (hbears : w.tables.Bears node.id []) : Runs Event.Grows w (withRoots node path) fun p w' =>
      p.Found name w' ∧ p.Placed path ∧ w'.tables.Bears p.node.id rootTypes := by
  have hnames := Graph.isName_of_pathEntry hpath
  have hchild (n : String) (hn : Path.IsName n) : ∀ m ∈ (path.child n).names, Path.IsName m := by
    rw [Path.child_name path hn]
    intro m hm
    rcases List.mem_append.mp hm with hm | hm
    · exact hnames m hm
    · exact List.mem_singleton.mp hm ▸ hn
  refine (runs_root (hchild "specs" (by decide)) (by decide) hbears).bind
    fun specs w₂ hw₂ hr₂ h₂ => ?_
  obtain ⟨hspecs, hspecskey, hspecspath, hbears⟩ := h₂
  refine (runs_root (hchild "intent" (by decide)) (by decide) hbears).bind
    fun intent w₃ hw₃ hr₃ h₃ => ?_
  obtain ⟨hintent, hintentkey, hintentpath, hbears⟩ := h₃
  refine (runs_root (hchild "src" (by decide)) (by decide) hbears).bind
    fun source w₄ hw₄ hr₄ h₄ => ?_
  obtain ⟨hsource, hsourcekey, hsourcepath, hbears⟩ := h₄
  refine (runs_link fun _ _ => trivial).bind fun _ w₅ hw₅ hr₅ hlink => .pure ⟨?_, ?_, ?_⟩
  · have hr₄ := hr₄.trans hr₅
    have hr₃ := hr₃.trans hr₄
    have hr₂ := hr₂.trans hr₃
    have found {n : Node} {k : NodeKey} {w : Workspace} (hw : w.Sound)
        (hr : Reach Event.Grows w w₅) (hn : w.tables.node? n.id = some n) (hk : n.key = k) :
        w₅.tables.findNode? k = some n :=
      (Tables.findNode?_eq_some hw₅.wellFormed).mpr ⟨Lasts.reach (lasts_node? n.id n) hw hr hn, hk⟩
    refine ⟨?_, ?_, ?_, ?_⟩
    · exact found hw hr₂ hstored (hkey.trans (by rw [hr₂.instanceId_eq]))
    · exact found hw₂ hr₃ hspecs (hspecskey.trans (by rw [hr₂.instanceId_eq]))
    · exact found hw₃ hr₄ hintent (hintentkey.trans (by rw [hr₃.instanceId_eq]))
    · exact found hw₄ hr₅ hsource (hsourcekey.trans (by rw [hr₄.instanceId_eq]))
  · exact ⟨hpath, hspecspath, hintentpath, hsourcepath⟩
  · have hnodes : w₅.tables.nodes = w₄.tables.nodes := by
      obtain ⟨-, hlink⟩ := hlink
      generalize w₅.tables = t at hlink
      cases hlink with
      | old => rfl
      | new h => obtain ⟨rfl, -⟩ := Tables.insertEdge_eq_ok h; rfl
    intro m hm hparent
    rw [Tables.node?, hnodes] at hm
    exact hbears hm hparent

/-- A new project is found and placed, and only its roots are below it. -/
theorem runs_nodes (hnew : w.tables.findNode? ⟨none, w.graph.instanceId, .project, name⟩ = none) :
    Runs Event.Grows w (nodes name path) fun p w' =>
      p.Found name w' ∧ p.Placed path ∧ w'.tables.Bears p.node.id rootTypes := by
  refine Runs.transaction (fun hr h => ?_) fun w₀ hw₀ ht₀ hr₀ => ?_
  · exact ⟨h.1.quiet hr, h.2.1, hr.tables_of_quiet ▸ h.2.2⟩
  rw [← ht₀, ← hr₀.instanceId_eq] at hnew
  have hget : Runs Event.Grows w₀ (getOrCreate none .project name (some (pathMembers path))) _ :=
    runs_getOrCreate fun _ _ _ _ => trivial
  refine hget.bind fun node w₁ hw₁ hr₁ hnode => ?_
  obtain ⟨hstored, hkey⟩ := hnode.node? hw₀.wellFormed
  refine .reader (reader_path? node) fun known hknown => ?_
  refine .ite (fun _ => ?_) fun hsame => ?_
  · exact .bind (Q := fun _ _ => False) (.throw _) fun _ _ _ _ h => h.elim
  · have hsame : known = some path := by simpa using hsame
    subst hsame
    exact runs_withRoots hw₁ hstored (hkey.trans (by rw [hr₁.instanceId_eq]; rfl)) (path?_eq_ok hknown)
      (bears_of_found hw₀.wellFormed hnew hnode)

/-- A project that is set up anew is found and placed, and only its roots are below it. -/
theorem setup_eq_ok (hw : w.Sound)
    (hnew : w.tables.findNode? ⟨none, w.graph.instanceId, .project, name⟩ = none)
    (h : (setup name path).run w = .ok p w') :
    p.Found name w' ∧ p.Placed (path.resolve w.files.workingDirectory) ∧
      w'.tables.Bears p.node.id rootTypes := by
  have hrest : (do
      let full := path.resolve (← Op.files).workingDirectory
      let p ← nodes name full
      for r in [p.specs, p.intent, p.source] do Op.makeDirs (← Graph.pathOf r)
      return p : Op Project).run w = .ok p w' := by
    unfold setup at h
    split at h
    · cases h
    · exact h
  have hfiles : files.run w = .ok w.files w := rfl
  rw [bind_ok hfiles] at hrest
  obtain ⟨q, w₁, hnodes, h₁⟩ := bind_eq_ok.mp hrest
  obtain ⟨_, w₂, hdirs, h₂⟩ := bind_eq_ok.mp h₁
  cases h₂
  obtain ⟨hreach, hfound, hplaced, hbears⟩ := (runs_nodes hnew).ok hw hnodes
  have hloop : Safe ⟨Event.None, fun _ => True, fun _ _ _ => trivial⟩
      (forIn [p.specs, p.intent, p.source] PUnit.unit fun r _ =>
        pathOf r >>= fun q => makeDirs q >>= fun _ => pure (.yield ⟨⟩)) :=
    .forIn fun _ _ => .bind (.of_reader (reader_pathOf _)) fun _ => .once (safe_makeDirs _)
  have hquiet := ((hloop.runs w₁ trivial).ok (hreach.sound hw) hdirs).1
  exact ⟨hfound.quiet hquiet, hplaced, hquiet.tables_of_quiet ▸ hbears⟩

/-! ## A project in an empty directory -/

/-- A workspace without files, with an empty graph. -/
def blank : Workspace where
  files := .empty (.ofText "/work") 1 1
  graph := { root := .ofText "/work/store", instanceId := "default" }
  supply := { nextId := 0, nextTime := 0 }

theorem sound_blank : blank.Sound where
  wellFormed := Tables.wellFormed_empty
  spent hu := by rcases hu with h | h | h <;> cases h
  exact h := by cases h

/-- The workspace with a new project. -/
def sample : Workspace := (setup "demo" (.ofText "/work/demo")).after blank

theorem setup_blank : ∃ p, (setup "demo" (.ofText "/work/demo")).run blank = .ok p sample := by
  have hok : (setup "demo" (.ofText "/work/demo")).gives blank (fun _ _ => true) = true := by
    decide +kernel
  obtain ⟨p, w, hrun, -⟩ := gives_eq_true.mp hok
  exact ⟨p, by rw [sample, after_of_run hrun, hrun]⟩

/-- The new project is found, and lies in its directory. -/
theorem found_sample : ∃ p : Project, p.Found "demo" sample ∧ p.Placed (.ofText "/work/demo") := by
  obtain ⟨p, hp⟩ := setup_blank
  obtain ⟨hfound, hplaced, -⟩ := setup_eq_ok sound_blank (by rfl) hp
  have hdir : (Path.ofText "/work/demo").resolve blank.files.workingDirectory = .ofText "/work/demo" := by
    decide +kernel
  exact ⟨p, hfound, hdir ▸ hplaced⟩

theorem sound_sample : sample.Sound :=
  have hsafe : Safe .any (setup "demo" (.ofText "/work/demo")) :=
    safe_setup (fun _ _ => trivial) (fun _ => trivial) _ _
  ((hsafe.runs _ trivial).after sound_blank).sound sound_blank

/-- The node keeps the path. -/
def keepsPath (n : Node) (P : Path) : Bool :=
  match n.pathEntry with
  | .path Q => Q == P
  | _ => false

theorem pathEntry_of_keepsPath {n : Node} {P : Path} (h : keepsPath n P = true) : n.pathEntry = .path P := by
  unfold keepsPath at h
  split at h
  · next hQ => rw [hQ, beq_iff_eq.mp h]
  · cases h

/-- The project is in its place, and a test of it succeeds. -/
def inPlace (w : Workspace) (test : Project → Bool) : Bool :=
  (Project.require "demo").gives w fun p _ => keepsPath p.node (.ofText "/work/demo") &&
    keepsPath p.specs ((Path.ofText "/work/demo").child "specs") &&
    keepsPath p.intent ((Path.ofText "/work/demo").child "intent") &&
    keepsPath p.source ((Path.ofText "/work/demo").child "src") && test p

theorem found_of_inPlace {test : Project → Bool} (h : inPlace w test = true) :
    ∃ p : Project, p.Found "demo" w ∧ p.Placed (.ofText "/work/demo") ∧ test p = true := by
  obtain ⟨p, v, hp, htest⟩ := gives_eq_true.mp h
  obtain ⟨-, hfound⟩ := Project.require_eq_ok hp
  simp only [Bool.and_eq_true] at htest
  obtain ⟨⟨⟨⟨hnode, hspecs⟩, hintent⟩, hsource⟩, htest⟩ := htest
  exact ⟨p, hfound, ⟨pathEntry_of_keepsPath hnode, pathEntry_of_keepsPath hspecs,
    pathEntry_of_keepsPath hintent, pathEntry_of_keepsPath hsource⟩, htest⟩

/-- A name, spelled out if it is this one. -/
def spelled (name s : String) : String := if s = name then name else s

theorem spelled_eq (name s : String) : spelled name s = s := by
  unfold spelled
  split
  · next h => exact h.symm
  · rfl

/-- The workspace where a name is spelled out in the graph.  It is the same workspace, but to see that a
name which is read from the file tree is the one in the graph takes no more than to read it. -/
def spelling (name : String) (w : Workspace) : Workspace :=
  { w with graph := { w.graph with tables := { w.graph.tables with
      nodes := w.graph.tables.nodes.map fun (i, n) => (i, { n with name := spelled name n.name })
      nodeIndex := w.graph.tables.nodeIndex.map fun (k, i) => ({ k with name := spelled name k.name }, i) } } }

theorem spelling_eq (name : String) (w : Workspace) : spelling name w = w := by
  have hnodes : w.graph.tables.nodes.map (fun e => (e.1, { e.2 with name := spelled name e.2.name })) =
      w.graph.tables.nodes := by
    simp only [spelled_eq, List.map_id']
  have hindex : w.graph.tables.nodeIndex.map (fun e => ({ e.1 with name := spelled name e.1.name }, e.2)) =
      w.graph.tables.nodeIndex := by
    simp only [spelled_eq, List.map_id']
  unfold spelling
  rw [hnodes, hindex]

end Project

end IntentBuild
