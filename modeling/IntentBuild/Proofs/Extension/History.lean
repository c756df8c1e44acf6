import IntentBuild.Proofs.Extension.Registry

/-!
# The registry as a map

Between two operations the graph is at rest, or nothing was put into it yet (`Workspace.Idle`).  A chronicle
has the workspaces that are reached from a new graph by installing and removing extensions, with setups,
builds, operations on dependencies, other changes of files and reopenings between them, and the row of what
was installed and removed (`Registry.Chronicle`).

The row says what the registry holds: for each identifier of each project the extension that was last
installed, unless it was removed since (`Registry.current`, `Registry.refines_map`).
-/

namespace IntentBuild

open Op

/-! ## Between two operations -/

namespace Workspace

/-- The graph is at rest, or nothing was put into it yet. -/
structure Idle (w : Workspace) : Prop where
  /-- The document is in step with the graph. -/
  rest : w.AtRest ∨ w.Fresh
  /-- The graph is steady. -/
  steady : w.Steady
  /-- The names of files are proper. -/
  proper : w.Proper
  /-- The anchors are arranged. -/
  arranged : w.tables.Arranged

/-- The node stands for a project of the graph. -/
def Stores (w : Workspace) (project : Node) : Prop :=
  ∃ n, w.tables.node? project.id = some n ∧ n.type = .project

variable {w w' : Workspace} {project : Node} {α : Type} {x : Op α}

/-- A project stands where the rows outside of the extensions of some project are kept. -/
theorem Stores.retains {i p : String} (hp : w.Stores project) (hw : w.Sound) (ha : w.tables.Arranged)
    (hr : w.tables.Retains i p w'.tables) : w'.Stores project := by
  obtain ⟨n, hn, htype⟩ := hp
  exact ⟨n, (hr.node hn (ha.not_inExtensions hw.wellFormed hn htype)).1, htype⟩

/-- A project stands where the anchors are held. -/
theorem Stores.holds (hp : w.Stores project) (h : w.tables.Holds w'.tables) : w'.Stores project := by
  obtain ⟨n, hn, htype⟩ := hp
  obtain ⟨n', hn', halike⟩ := h.kept hn (htype ▸ trivial)
  exact ⟨n', hn', halike.type_eq.trans htype⟩

/-- A graph with a project is at rest. -/
theorem Idle.atRest (h : w.Idle) (hp : w.Stores project) : w.AtRest := by
  rcases h.rest with h | h
  · exact h
  · obtain ⟨n, hn, -⟩ := hp
    rw [h.tables] at hn
    cases hn

theorem Idle.wellFormed (h : w.Idle) : w.tables.WellFormed := h.steady.sound.wellFormed

theorem Steady.after (h : w.Steady) (hx : Safe (.within w.graph.instanceId fun _ => false) x) :
    (x.after w).Steady :=
  ((hx.runs w w.fenced_none).after h.sound).steady h

theorem Proper.after (h : w.Proper) (hw : w.Sound) (hx : Safe (.only Event.Proper) x) : (x.after w).Proper :=
  ((hx.runs w trivial).after hw).proper h

theorem Idle.later (h : w.Idle) (hl : w.Later w') : w'.Idle where
  rest := h.rest.imp hl.atRest hl.fresh
  steady := hl.steady h.steady
  proper := hl.proper
  arranged := hl.tables_eq ▸ h.arranged

/-- A new graph is idle. -/
theorem Fresh.idle (h : w.Fresh) (hp : w.Proper) : w.Idle where
  rest := .inr h
  steady := steady_of_empty h.tables
  proper := hp
  arranged := h.tables ▸ Tables.arranged_empty

/-- A new graph leaves the names of files proper. -/
theorem Proper.opened {v : Workspace} {root i : String} (hv : v.Proper)
    (hfile : v.files.isFile ((Path.ofText root).child "graph.json") = false)
    (h : (openGraph (.ofText root) i).run v = .ok ⟨⟩ w) : w.Proper := by
  obtain ⟨t, ht, -, rfl⟩ := openGraph_first hfile h
  refine ⟨FileTree.makeDirs_eq_ok ht ▸ hv.files.addDirs _, ?_, fun _ hn => Path.isName_of_mem_ofText hn⟩
  change ∀ n ∈ t.workingDirectory.names, Path.IsName n
  rw [FileTree.makeDirs_eq_ok ht, FileTree.workingDirectory_addDirs]
  exact hv.workingDirectory

/-- A graph that is opened again is idle, with the anchors that it had. -/
theorem Idle.reopen (h : w.Idle) (hd : w.tables.Durable) (i : String) :
    ∃ w', (openGraph w.graph.root i).run w = .ok ⟨⟩ w' ∧ w'.Idle ∧ w.tables.Holds w'.tables := by
  rcases h.rest with hrest | hfresh
  · obtain ⟨u, hrun, hagree, hsteady, hrest'⟩ := hrest.reopen h.steady hd i
    have hnode (j : String) : u.node? j = w.tables.node? j := congrArg (Assoc.get? j) hagree.nodes
    exact ⟨_, hrun, ⟨.inl hrest', hsteady, ⟨h.proper.files, h.proper.workingDirectory, h.proper.root⟩,
      h.arranged.mono fun hn => (hnode _).symm.trans hn⟩, .of_nodes hnode⟩
  · obtain ⟨hrun, hfresh'⟩ := hfresh.reopen i
    refine ⟨_, hrun, ⟨.inr hfresh', steady_of_empty rfl,
      ⟨h.proper.files, h.proper.workingDirectory, h.proper.root⟩, Tables.arranged_empty⟩, ?_⟩
    rw [hfresh.tables]
    exact .refl _

/-- A project is set up. -/
theorem Idle.setup (h : w.Idle) (name s : String) :
    ((Project.setup name (.ofText s)).after w).Idle ∧
      w.tables.Holds ((Project.setup name (.ofText s)).after w).tables := by
  have hwd := h.proper.workingDirectory
  obtain ⟨harranged, hholds⟩ := Project.setup_holds h.steady.sound h.arranged hwd name s
  have hsteady := h.steady.after (Project.own_setup name (.ofText s)).safe
  refine ⟨⟨?_, hsteady, h.proper.after h.steady.sound ?_, harranged⟩, hholds⟩
  · rcases Project.setup_rest h.rest hwd name s with hrest | ⟨heq, hfresh⟩
    · exact .inl hrest
    · rw [heq]
      exact .inr hfresh
  · exact Project.safe_setup (fun _ _ => trivial) (fun _ => trivial) name _

/-- What is tended is idle. -/
theorem Tended.idle (h : Tended w w') (hs : w'.Steady) : w'.Idle := ⟨.inl h.rest, hs, h.proper, h.arranged⟩

end Workspace

/-- There are no projects in a new graph. -/
theorem Build.run_of_fresh {w : Workspace} (h : w.Fresh) (s : Services) (name : String) (plan : Plan) :
    (run s name plan).run w = .error (.project (.unknown name)) w := by
  have hchild : (Graph.child? none .project name).run w = .ok none w := by
    change EStateM.Result.ok (w.tables.findNode? _) w = _
    rw [h.tables]
    rfl
  have hfind : (Project.find? name).run w = .ok none w := by
    rw [Project.find?, bind_ok hchild]
    rfl
  have hrequire : (Project.require name).run w = .error (.project (.unknown name)) w := by
    rw [Project.require, bind_ok hfind]
    rfl
  rw [run, bind_error]
  rw [start, bind_error hrequire]

namespace Workspace

variable {w : Workspace} {project : Node} {x : Op Unit}

/-- A project is built. -/
theorem Idle.build (h : w.Idle) (s : Services) (name : String) (plan : Plan) :
    ((Build.run s name plan).after w).Idle ∧ w.tables.Holds ((Build.run s name plan).after w).tables := by
  rcases h.rest with hrest | hfresh
  · have htended := Build.tended_run hrest h.proper h.arranged s name plan
    exact ⟨htended.idle (h.steady.after (Build.within_run s name plan)), htended.holds⟩
  · rw [Op.after, Build.run_of_fresh hfresh]
    exact ⟨h, .refl _⟩

end Workspace

/-! ## Dependencies -/

/-- An operation on the dependencies of a project. -/
inductive DependencyRequest (project : Node) : Op Unit → Prop
  | manifest : DependencyRequest project (do let _ ← Manifest.node project)
  | apply (file : Node) (deltas : List DependencyDelta) :
      DependencyRequest project (do let _ ← Manifest.applyDeltas project file deltas)
  | replace (file : Node) (declared : Dependencies) :
      DependencyRequest project (do let _ ← Manifest.replaceDeclared project file declared)
  | declared : DependencyRequest project (do let _ ← Manifest.declared project)
  | reconcile : DependencyRequest project (do let _ ← Manifest.reconcile project)
  | sync : DependencyRequest project (do let _ ← DepsFile.sync project)
  | synced : DependencyRequest project (do let _ ← DepsFile.synced project)
  | verify : DependencyRequest project (DepsFile.verify project)

namespace DependencyRequest

variable {w : Workspace} {project : Node} {x : Op Unit}

theorem safe (h : DependencyRequest project x) (w : Workspace) : Safe w.caring x := by
  have hR := w.declares_caring
  cases h with
  | manifest => exact (Manifest.safe_node hR project).bind fun _ => .pure _
  | apply file deltas => exact (Manifest.safe_applyDeltas hR project file deltas).bind fun _ => .pure _
  | replace file declared =>
      exact (Manifest.safe_replaceDeclared hR project file declared).bind fun _ => .pure _
  | declared =>
      exact ((Manifest.safe_node hR project).bind fun _ => .of_reader (Manifest.reader_unionOf _)).bind
        fun _ => .pure _
  | reconcile => exact (Manifest.safe_reconcile hR project).bind fun _ => .pure _
  | sync => exact (w.safe_sync_caring project).bind fun _ => .pure _
  | synced => exact (DepsFile.safe_synced hR project).bind fun _ => .pure _
  | verify => exact DepsFile.safe_verify hR project

theorem within (h : DependencyRequest project x) (i : String) : Safe (.within i fun _ => false) x := by
  have own (n : Node) : n.Own fun _ => false := rfl
  cases h with
  | manifest => exact (Manifest.own_node (own project)).safe.bind fun _ => .pure _
  | apply file deltas =>
      exact (Manifest.within_applyDeltas (own project) (own file) deltas).bind fun _ => .pure _
  | replace file declared =>
      exact (Manifest.within_replaceDeclared (own project) (own file) declared).bind fun _ => .pure _
  | declared => exact (Manifest.within_declared (own project)).bind fun _ => .pure _
  | reconcile => exact (Manifest.within_reconcile (own project)).bind fun _ => .pure _
  | sync => exact (DepsFile.within_sync (own project)).bind fun _ => .pure _
  | synced => exact (DepsFile.within_synced (own project)).bind fun _ => .pure _
  | verify => exact DepsFile.within_verify (own project)

end DependencyRequest

/-- The dependencies of a project are worked on. -/
theorem Workspace.Idle.depend {w : Workspace} {project : Node} {x : Op Unit} (h : w.Idle)
    (hp : w.Stores project) (hx : DependencyRequest project x) :
    (x.after w).Idle ∧ w.tables.Holds (x.after w).tables := by
  have htended := (Tended.refl (h.atRest hp) h.proper h.arranged).runs ((hx.safe w).runs w h.arranged)
  exact ⟨htended.idle (h.steady.after (hx.within _)), htended.holds⟩

/-! ## Installing and removing -/

namespace Registry

variable {w : Workspace} {project : Node} {e : ExtensionSpec} {id : String}

/-- A valid extension is installed into a stored project. -/
theorem install_idle (h : w.Idle) (hp : w.Stores project) (he : e.Valid) :
    ∃ n w', (install project e).run w = .ok n w' ∧ w'.Idle ∧ Bears n e ∧
      Turns w.graph.instanceId project.id e.id (some n) w.tables w'.tables := by
  have hrest := h.atRest hp
  obtain ⟨q, hq, htype⟩ := hp
  obtain ⟨n, w', hrun, hbears, hturns⟩ := install_run hrest h.arranged hq htype he
  have hrest' := atRest_install hrest project e
  have hown : project.Own fun _ => false := rfl
  have hsteady := h.steady.after (within_install hown e)
  have hproper := h.proper.after h.steady.sound
    (safe_install (fun _ _ => trivial) (fun _ _ _ => trivial) project e)
  rw [after_of_run hrun] at hrest' hsteady hproper
  exact ⟨n, w', hrun, ⟨.inl hrest', hsteady, hproper, hturns.arranged⟩, hbears, hturns⟩

/-- An extension is removed from a project, if it is there. -/
theorem remove_idle (h : w.Idle) (project : Node) (id : String) :
    ∃ w', (remove project id).run w =
        .ok (w.tables.extension? w.graph.instanceId project.id id).isSome w' ∧ w'.Idle ∧
      Turns w.graph.instanceId project.id id none w.tables w'.tables := by
  rcases h.rest with hrest | hfresh
  · obtain ⟨w', hrun, hturns⟩ := remove_run hrest h.steady.universal h.arranged project id
    have hrest' := atRest_remove hrest project id
    have hown : project.Own fun _ => false := rfl
    have hsteady := h.steady.after (within_remove hown id)
    have hproper := h.proper.after h.steady.sound (safe_remove (fun {_ n} hI _ _ =>
      (Graph.safe_cascadeDelete (fun _ => trivial) (fun _ => trivial) (fun _ => trivial) n true).runs _ hI)
      project id)
    rw [after_of_run hrun] at hrest' hsteady hproper
    exact ⟨w', hrun, ⟨.inl hrest', hsteady, hproper, hturns.arranged⟩, hturns⟩
  · have hext : w.tables.extension? w.graph.instanceId project.id id = none := by
      rw [hfresh.tables]
      rfl
    refine ⟨w, ?_, h, .refl h.arranged hext⟩
    rw [hext]
    exact remove_absent hext

/-! ## The chronicle -/

theorem proper_fresh : Workspace.fresh.Proper :=
  Workspace.Proper.opened Project.proper_blank (Workspace.isFile_blank _) Workspace.openGraph_fresh

/-- What is asked of the registry, with the instance and the identifier of the project. -/
inductive Act where
  /-- An extension is installed. -/
  | install (instanceId project : String) (e : ExtensionSpec)
  /-- An extension is removed. -/
  | remove (instanceId project id : String)

/-- The extension that was last installed under an identifier and not removed since.  The acts are given the
last one first. -/
def current (i p id : String) : List Act → Option ExtensionSpec
  | [] => none
  | .install j q e :: acts => if i = j ∧ p = q ∧ id = e.id then some e else current i p id acts
  | .remove j q id' :: acts => if i = j ∧ p = q ∧ id = id' then none else current i p id acts

theorem id_of_current {i p id : String} {acts : List Act} (h : current i p id acts = some e) : e.id = id := by
  induction acts with
  | nil => cases h
  | cons act acts ih =>
      cases act with
      | install j q e' =>
          rw [current] at h
          split at h
          · rename_i hk
            cases h
            exact hk.2.2.symm
          · exact ih h
      | remove j q id' =>
          rw [current] at h
          split at h
          · cases h
          · exact ih h

/-- The workspaces that are reached from a new graph, with what was asked of the registry on the way, the last
act first.  Projects need to be stored, and extensions valid, only where something is put below them.  The
rows of a graph that is opened again are built of proper values. -/
inductive Chronicle : Workspace → List Act → Prop
  | opened {v w : Workspace} {root : Path} {i : String}
      (hv : v.files.entryAt (v.files.key (root.child "graph.json")) = none)
      (h : (openGraph root i).run v = .ok ⟨⟩ w) (hp : w.Proper) : Chronicle w []
  | installed {w : Workspace} {acts : List Act} (h : Chronicle w acts) {project : Node}
      (hp : w.Stores project) {e : ExtensionSpec} (he : e.Valid) :
      Chronicle ((install project e).after w) (.install w.graph.instanceId project.id e :: acts)
  | removed {w : Workspace} {acts : List Act} (h : Chronicle w acts) (project : Node) (id : String) :
      Chronicle ((remove project id).after w) (.remove w.graph.instanceId project.id id :: acts)
  | setUp {w : Workspace} {acts : List Act} (h : Chronicle w acts) (name path : String) :
      Chronicle ((Project.setup name (.ofText path)).after w) acts
  | built {w : Workspace} {acts : List Act} (h : Chronicle w acts) (s : Services) (name : String)
      (plan : Plan) : Chronicle ((Build.run s name plan).after w) acts
  | depended {w : Workspace} {acts : List Act} (h : Chronicle w acts) {project : Node}
      (hp : w.Stores project) {x : Op Unit} (hx : DependencyRequest project x) :
      Chronicle (x.after w) acts
  | later {w w' : Workspace} {acts : List Act} (h : Chronicle w acts) (hl : w.Later w') : Chronicle w' acts
  | reopened {w : Workspace} {acts : List Act} (h : Chronicle w acts) (hd : w.tables.Durable) (i : String) :
      Chronicle ((openGraph w.graph.root i).after w) acts

theorem Turns.charts {t t' : Tables} {i p id : String} {n : Option Node} {o : Option ExtensionSpec}
    {m : String → String → String → Option ExtensionSpec} (h : Turns i p id n t t')
    (hm : ∀ j q, t.Charts j q (m j q)) (ho : Option.Rel Bears n o) (j q : String) :
    t'.Charts j q fun id' => if j = i ∧ q = p ∧ id' = id then o else m j q id' := by
  intro id'
  rw [h.extension?]
  dsimp only
  split
  · exact ho
  · exact hm j q id'

/-- The nodes of the extensions bear what the chronicle says. -/
theorem Chronicle.charts {w : Workspace} {acts : List Act} (h : Chronicle w acts) :
    w.Idle ∧ ∀ i p, w.tables.Charts i p fun id => current i p id acts := by
  induction h with
  | opened hv h hp =>
      have hfresh := Workspace.fresh_of_openGraph hv h
      refine ⟨hfresh.idle hp, fun i p id => ?_⟩
      rw [hfresh.tables]
      exact .none
  | installed _ hp he ih =>
      obtain ⟨n, w', hrun, hidle, hbears, hturns⟩ := install_idle ih.1 hp he
      rw [after_of_run hrun]
      exact ⟨hidle, hturns.charts ih.2 (.some hbears)⟩
  | removed _ project id ih =>
      obtain ⟨w', hrun, hidle, hturns⟩ := remove_idle ih.1 project id
      rw [after_of_run hrun]
      exact ⟨hidle, hturns.charts ih.2 .none⟩
  | setUp _ name path ih =>
      obtain ⟨hidle, hholds⟩ := ih.1.setup name path
      exact ⟨hidle, fun i p => (ih.2 i p).holds hholds ih.1.wellFormed hidle.wellFormed⟩
  | built _ s name plan ih =>
      obtain ⟨hidle, hholds⟩ := ih.1.build s name plan
      exact ⟨hidle, fun i p => (ih.2 i p).holds hholds ih.1.wellFormed hidle.wellFormed⟩
  | depended _ hp hx ih =>
      obtain ⟨hidle, hholds⟩ := ih.1.depend hp hx
      exact ⟨hidle, fun i p => (ih.2 i p).holds hholds ih.1.wellFormed hidle.wellFormed⟩
  | later _ hl ih => exact ⟨ih.1.later hl, hl.tables_eq ▸ ih.2⟩
  | reopened _ hd i ih =>
      obtain ⟨w', hrun, hidle, hholds⟩ := ih.1.reopen hd i
      rw [after_of_run hrun]
      exact ⟨hidle, fun i p => (ih.2 i p).holds hholds ih.1.wellFormed hidle.wellFormed⟩

/-- The registry of a project holds what was last installed under each identifier and not removed since, each
once, in the order of the identifiers.  A valid extension can be installed into every stored project, and an
extension is removed with the answer whether it was installed.  Both leave all rows outside of the
extensions of the project as they are. -/
theorem refines_map {w : Workspace} {acts : List Act} (h : Chronicle w acts) (project : Node) :
    (∃ es, (installed project).run w = .ok es w ∧
      Listed (fun id => current w.graph.instanceId project.id id acts) es) ∧
    (∀ e : ExtensionSpec, e.Valid → w.Stores project → ∃ n w', (install project e).run w = .ok n w' ∧
      w.tables.Retains w.graph.instanceId project.id w'.tables ∧
      w'.tables.Retains w.graph.instanceId project.id w.tables) ∧
    ∀ id, ∃ w', (remove project id).run w =
        .ok (current w.graph.instanceId project.id id acts).isSome w' ∧
      w.tables.Retains w.graph.instanceId project.id w'.tables ∧
      w'.tables.Retains w.graph.instanceId project.id w.tables := by
  obtain ⟨hidle, hcharts⟩ := h.charts
  refine ⟨?_, fun e he hp => ?_, fun id => ?_⟩
  · exact installed_run hidle.steady.sound hidle.arranged (hcharts _ _) id_of_current
  · obtain ⟨n, w', hrun, -, -, hturns⟩ := install_idle hidle hp he
    exact ⟨n, w', hrun, hturns.kept, hturns.old⟩
  · obtain ⟨w', hrun, -, hturns⟩ := remove_idle hidle project id
    rw [(hcharts _ _).isSome_eq] at hrun
    exact ⟨w', hrun, hturns.kept, hturns.old⟩

/-- In a graph that was opened again, an extension that is installed again is upgraded.  What was never
installed is not removed. -/
theorem refines_map_upgraded :
    let a : ExtensionSpec := ⟨"a", "", "1", [], []⟩
    let b : ExtensionSpec := ⟨"a", "A", "2", [("ts", "Be strict.")], ["lint"]⟩
    ∃ (w : Workspace) (project : Node) (i : String),
      Chronicle w [.install i project.id b, .install i project.id a] ∧
      (installed project).run w = .ok [b] w ∧ (∃ w', (remove project "a").run w = .ok true w') ∧
      ∃ w', (remove project "b").run w = .ok false w' := by
  intro a b
  obtain ⟨hnone, ⟨p, hmem, htype⟩, hsimple⟩ :
      Project.blank.files.entryAt
        (Project.blank.files.key ((Path.ofText "/work/store").child "graph.json")) = none ∧
      (∃ n ∈ Workspace.settled.tables.allNodes, n.type = .project) ∧
      Workspace.isSimple Workspace.settled.tables = true := by decide +kernel
  have hopened : Chronicle Workspace.fresh [] := .opened hnone Workspace.openGraph_fresh proper_fresh
  have hsettled : Chronicle Workspace.settled [] := by
    rw [Workspace.settled, Request.op, after_discard]
    exact hopened.setUp "demo" "/work/demo"
  have hnode := (Tables.mem_allNodes hsettled.charts.1.wellFormed).mp hmem
  have hdurable := (Workspace.plain_of_isSimple hsimple).lossless.durable
  obtain ⟨w₀, hrun₀, hidle, hholds⟩ := hsettled.charts.1.reopen hdurable "default"
  have h₀ := hsettled.reopened hdurable "default"
  rw [after_of_run hrun₀] at h₀
  have hp : w₀.Stores p := Workspace.Stores.holds ⟨p, hnode, htype⟩ hholds
  have ha : a.Valid := ⟨by decide, by decide⟩
  have hb : b.Valid := ⟨by decide, by decide⟩
  obtain ⟨-, hinstall, -⟩ := refines_map h₀ p
  obtain ⟨n, w₁, hrun, hkept, -⟩ := hinstall a ha hp
  have hp₁ := hp.retains hidle.steady.sound hidle.arranged hkept
  have h₁ := h₀.installed hp ha
  rw [after_of_run hrun] at h₁
  have hi₁ := instanceId_install hidle.steady.sound p a
  rw [after_of_run hrun] at hi₁
  have h₂ := h₁.installed hp₁ hb
  have hi₂ := instanceId_install h₁.charts.1.steady.sound p b
  rw [hi₁] at h₂ hi₂
  obtain ⟨⟨es, hes, hlisted⟩, -, hremove⟩ := refines_map h₂ p
  rw [hi₂] at hlisted hremove
  have hcurrent (i id : String) : current i p.id id [.install i p.id b, .install i p.id a] =
      if id = "a" then some b else none := by
    rw [current, current, current]
    by_cases hid : id = "a" <;> simp [hid, a, b]
  simp only [hcurrent] at hlisted hremove
  have hone : Listed (fun id => if id = "a" then some b else none) [b] := by
    refine ⟨List.pairwise_singleton _ _, fun e => ?_⟩
    rw [List.mem_singleton, Option.ite_none_right_eq_some, Option.some.injEq, eq_comm]
    refine ⟨fun he => ⟨he ▸ rfl, he⟩, fun he => he.2⟩
  rw [hlisted.unique hone] at hes
  obtain ⟨w', hremoved, -⟩ := hremove "a"
  obtain ⟨w'', habsent, -⟩ := hremove "b"
  exact ⟨_, p, _, h₂, hes, ⟨w', hremoved⟩, w'', habsent⟩

end Registry

end IntentBuild
