import IntentBuild.Proofs.Build.Readiness
import IntentBuild.Proofs.Graph.Addresses
import IntentBuild.Proofs.Instance.Sharing

/-!
# Names of files in the graph

A node that stands for a directory or a file has the name of one, and a specification is shown and has the
ending of specifications (`Node.Apt`).  No change but a new node has a bearing on this, and whatever makes
the places of files makes nodes with such names only (`Build.apt_run`).

So it holds of every graph with a past (`Build.Past`): from an empty graph on, projects are set up and
builds run in it, whether they fail or not, and between them files change and the graph may be closed and
opened again.
-/

namespace IntentBuild

open Op

/-! ## Apt names -/

/-- The node stands for a directory or a file. -/
def NodeType.IsPlace (t : NodeType) : Prop :=
  t = .specDir ∨ t = .specFile ∨ t = .intentDir ∨ t = .intentFile ∨ t = .sourceDir ∨ t = .sourceFile

/-- The name of a node is one that its file or directory can have. -/
structure Node.Apt (n : Node) : Prop where
  /-- The name can stand in a path and does not lead upwards. -/
  isName : n.type.IsPlace → Path.IsName n.name ∧ n.name ≠ ".."
  /-- What is below the root of the specifications is shown. -/
  shown : n.type = .specDir ∨ n.type = .specFile → FileTree.isShown n.name = true
  /-- A specification has the ending of specifications. -/
  ending : n.type = .specFile → Text.finishesWith n.name Stage.markdown = true

/-- Only the address of a node counts. -/
theorem Node.Apt.congr {n m : Node} (h : n.Apt) (hk : m.key = n.key) : m.Apt := by
  have htype : m.type = n.type := congrArg NodeKey.type hk
  have hname : m.name = n.name := congrArg NodeKey.name hk
  exact ⟨by rw [htype, hname]; exact h.isName, by rw [htype, hname]; exact h.shown,
    by rw [htype, hname]; exact h.ending⟩

/-- A node that stands for no file has an apt name. -/
theorem Node.apt_of_type {n : Node} (h : ¬ n.type.IsPlace) : n.Apt where
  isName ht := absurd ht h
  shown ht := absurd (ht.elim .inl fun ht => .inr (.inl ht)) h
  ending ht := absurd (.inr (.inl ht)) h

/-- A new node has an apt name. -/
def Event.Names : Event → Prop
  | .node n => n.Apt
  | _ => True

/-- All nodes have apt names. -/
def Workspace.Apt (w : Workspace) : Prop := ∀ i n, w.tables.node? i = some n → n.Apt

/-- Names stay apt while new nodes have apt names. -/
theorem lasts_apt : Lasts Event.Names Workspace.Apt := by
  intro e w w' he hw h ha i n hn
  rcases h.keyed ⟨n, hn, rfl⟩ with ⟨m, hm, hk⟩ | ⟨m, rfl, rfl, hk⟩
  · exact (ha i m hm).congr hk.symm
  · exact Node.Apt.congr (he.resolve_left id) hk.symm

/-! ## Rows of names -/

namespace Graph

variable {w : Workspace} {kind : FileKind} {p i : String} {names : List String}

/-- The types are those of directories and files. -/
structure FileKind.Places (kind : FileKind) : Prop where
  /-- The type of directories. -/
  dir : kind.dir.IsPlace
  /-- The type of files. -/
  file : kind.file.IsPlace

/-- The names of a row at which a file stands can stand in a path and do not lead upwards. -/
theorem Stands.isName (h : Stands w kind p names i) (hw : w.Apt) (hk : kind.Places) :
    ∀ n ∈ names, Path.IsName n ∧ n ≠ ".." := by
  have name {j : String} {k : NodeKey} (hj : w.Keyed j k) (ht : k.type.IsPlace) :
      Path.IsName k.name ∧ k.name ≠ ".." := by
    obtain ⟨m, hm, rfl⟩ := hj
    exact (hw j m hm).isName ht
  induction h with
  | file h => exact fun n hn => List.mem_singleton.mp hn ▸ name h hk.file
  | dir h _ ih =>
      intro n hn
      rcases List.mem_cons.mp hn with rfl | hn
      · exact name h hk.dir
      · exact ih n hn

/-- The row at which a specification stands is shown. -/
theorem Stands.shown (h : Stands w specKind p names i) (hw : w.Apt) :
    FileTree.Shown Stage.markdown names := by
  have apt {j : String} {k : NodeKey} (hj : w.Keyed j k) :
      (k.type = .specDir ∨ k.type = .specFile → FileTree.isShown k.name = true) ∧
        (k.type = .specFile → Text.finishesWith k.name Stage.markdown = true) := by
    obtain ⟨m, hm, rfl⟩ := hj
    exact ⟨(hw j m hm).shown, (hw j m hm).ending⟩
  induction h with
  | @file _ name _ h =>
      refine ⟨List.cons_ne_nil name [], fun n hn => ?_, (apt h).2 rfl⟩
      exact List.mem_singleton.mp hn ▸ (apt h).1 (.inr rfl)
  | @dir _ name _ _ names h rest ih =>
      refine ⟨List.cons_ne_nil name names, List.forall_mem_cons.mpr ⟨(apt h).1 (.inl rfl), ih.shown⟩, ?_⟩
      obtain ⟨m, ms, rfl⟩ := List.exists_cons_of_ne_nil ih.nonempty
      rw [List.getLastD_cons]
      exact ih.ending

end Graph

/-- A text of parts below a directory without names spells the parts. -/
theorem Graph.names_of_address {P : Path} {parts : List String} (hP : P.names = [])
    (h : Graph.IsRow parts) : (Path.ofText (Graph.address P parts)).names = parts := by
  obtain ⟨r, hr, hroot⟩ : ∃ r, (r = "" ∨ r = ".") ∧ Graph.rootText P = r := by
    obtain ⟨anchor, ns⟩ := P
    have hn : ns = [] := hP
    subst hn
    cases anchor
    · exact ⟨".", .inr rfl, by decide +kernel⟩
    · exact ⟨"", .inl rfl, by decide +kernel⟩
    · exact ⟨"", .inl rfl, by decide +kernel⟩
  have htext : Graph.address P parts = Text.joinWith "/" (r :: parts) := by
    rw [Graph.address, hroot, ← List.singleton_append,
      Text.joinWith_append (List.cons_ne_nil r []) h.nonempty]
    simp [Text.joinWith]
  have hsplit : Text.splitAt '/' (Text.joinWith "/" (r :: parts)) = r :: parts := by
    refine Text.splitAt_joinWith r parts fun m hm => ?_
    rcases List.mem_cons.mp hm with rfl | hm
    · rcases hr with rfl | rfl <;> decide
    · exact (h.proper m hm).1.whole
  have hkept : parts.filter (fun n => n != "" && n != ".") = parts := by
    refine List.filter_eq_self.mpr fun n hn => ?_
    rw [Bool.and_eq_true, bne_iff_ne, bne_iff_ne]
    exact ⟨(h.proper n hn).1.nonempty, (h.proper n hn).1.moves⟩
  rw [htext, Path.ofText, hsplit, List.filter_cons_of_neg, hkept]
  rcases hr with rfl | rfl <;> decide

/-- The parts of a file that a root shows are shown. -/
theorem Stage.Shows.shown {w : Workspace} {root : Node} {path : Path} {parts : List String}
    (h : Stage.Shows w root path) (ht : w.files.Proper)
    (hparts : Graph.HasParts root path.text parts) : FileTree.Shown Stage.markdown parts := by
  obtain ⟨P, hP, hlisted⟩ := h
  obtain ⟨names, hrow⟩ := Stage.row_of_mem ht hlisted
  by_cases hne : P.names = []
  · obtain ⟨hparts, hfull⟩ := (Graph.hasParts_iff hP).mp hparts
    have hpath : Path.ofText path.text = P.below names := by
      rw [hrow.path]
      refine Path.ofText_text fun n hn => ?_
      rcases List.mem_append.mp hn with hn | hn
      · exact Graph.isName_of_pathEntry hP n hn
      · exact hrow.isName n hn
    have hnames : parts = names := by
      rw [← Graph.names_of_address hne hparts, ← hfull, hpath, Path.below, hne, List.nil_append]
    exact hnames ▸ hrow.shown
  · exact hparts.unique (hrow.hasParts hP hne) ▸ hrow.shown

/-! ## What a build names -/

section

variable {c : BuildContext} {w w' : Workspace}

/-- New nodes have apt names, and files that are written have proper ones. -/
def Regime.naming : Regime where
  admits e := e.Names ∧ e.Proper
  holds := Workspace.Proper
  lasts _ hr h := (hr.mono fun _ he => he.2).proper h

theorem Regime.declares_naming : Regime.naming.Declares where
  manifest _ ht _ := ⟨Node.apt_of_type (by rw [ht]; simp [NodeType.IsPlace]), trivial⟩
  redeclare _ _ _ := ⟨trivial, trivial⟩
  link _ := ⟨trivial, trivial⟩
  unlink _ _ := ⟨trivial, trivial⟩

theorem Regime.derives_naming (file : Node) {type : NodeType} (ht : ¬ type.IsPlace) :
    Regime.naming.Derives file type where
  made _ hn _ _ := ⟨Node.apt_of_type (hn ▸ ht), trivial⟩
  changed _ _ _ _ := ⟨trivial, trivial⟩

theorem Regime.forgets_naming (type : NodeType) : Regime.naming.Forgets type :=
  fun _ n hI _ _ => (Graph.safe_cascadeDelete (R := .naming) (fun _ => ⟨trivial, trivial⟩)
    (fun _ => ⟨trivial, trivial⟩) (fun _ => ⟨trivial, trivial⟩) n true).runs _ hI

/-- A node on the way to a place has one of the parts for its name. -/
theorem Graph.OnPlace.mem {kind : Graph.FileKind} {parts : List String} {n : Node}
    (h : Graph.OnPlace kind parts n) : n.name ∈ parts := by
  rcases h.part with ⟨-, hn⟩ | ⟨-, hn⟩
  · exact List.dropLast_subset _ hn
  · exact List.mem_of_getLast? hn

/-- Places other than those of specifications ask for proper names only. -/
theorem Regime.places_naming (root : Node) {kind : Graph.FileKind}
    (hd : kind.dir ≠ .specDir ∧ kind.dir ≠ .specFile)
    (hf : kind.file ≠ .specDir ∧ kind.file ≠ .specFile) : Regime.naming.Places root kind := by
  intro _ parts hparts n hn
  have hname := hparts.isName n.name hn.mem
  have htype : n.type ≠ .specDir ∧ n.type ≠ .specFile := by
    rcases hn.part with ⟨ht, -⟩ | ⟨ht, -⟩
    · exact ht ▸ hd
    · exact ht ▸ hf
  exact ⟨⟨fun _ => hname, fun ht => (ht.elim htype.1 htype.2).elim, fun ht => absurd ht htype.2⟩, trivial⟩

theorem Regime.shows_naming (root : Node) : Regime.naming.Shows root Graph.specKind := by
  intro w path parts hw hshows hparts n hn
  have hshown := hshows.shown hw.files hparts
  refine ⟨⟨fun _ => hparts.isName n.name hn.mem, fun _ => hshown.shown n.name hn.mem, fun ht => ?_⟩,
    trivial⟩
  rcases hn.part with ⟨hdir, -⟩ | ⟨-, hlast⟩
  · rw [ht] at hdir
    cases hdir
  · have hending := hshown.ending
    rwa [List.getLastD_eq_getLast?, hlast, Option.getD_some] at hending

theorem Regime.carries_naming (c : BuildContext) : Regime.naming.Carries c := by
  have hproper := Build.carries_proper c
  have hintent : Regime.naming.Places c.project.intent Graph.intentKind :=
    Regime.places_naming _ (by decide) (by decide)
  exact
    { toDeclares := Regime.declares_naming
      keep := fun _ _ _ _ _ => ⟨trivial, trivial⟩
      calls := ⟨trivial, trivial⟩
      record := fun _ => ⟨trivial, trivial⟩
      dropRecord := fun _ => ⟨trivial, trivial⟩
      forgetsSpecs := Regime.forgets_naming _
      forgetsIntent := Regime.forgets_naming _
      showsSpecs := Regime.shows_naming _
      showsIntent := hintent.shows
      resolves := fun file =>
        { toDeclares := Regime.declares_naming
          toDerives := Regime.derives_naming file (by simp [NodeType.IsPlace])
          summary := fun hP text => ⟨trivial, (hproper.resolves file).summary hP text⟩ }
      lowers := fun file =>
        { toDeclares := Regime.declares_naming
          toDerives := Regime.derives_naming file (by simp [NodeType.IsPlace])
          places := hintent
          forgets := Regime.forgets_naming _
          entry := fun he _ hP => ⟨fun text =>
            ⟨trivial, ((hproper.lowers file).entry he hP).1 text⟩, trivial, trivial⟩ }
      derives := fun file => Regime.derives_naming file (by simp [NodeType.IsPlace])
      compiles := fun file hI hf =>
        { toDeclares := Regime.declares_naming
          toDerives := Regime.derives_naming file (by simp [NodeType.IsPlace])
          places := Regime.places_naming _ (by decide) (by decide)
          source := fun hP text => ⟨trivial, (hproper.compiles file trivial hf).source hP text⟩
          output := fun _ _ _ _ _ _ => ⟨trivial, trivial⟩
          input := fun _ _ _ _ _ => ⟨trivial, trivial⟩ } }

/-- Setting up a project makes no node for a file. -/
theorem Project.safe_setup_naming (name : String) (path : Path) : Safe .naming (setup name path) := by
  refine safe_setup (R := .naming) (fun n hn => ⟨Node.apt_of_type fun ht => ?_, trivial⟩)
    (fun _ => ⟨trivial, trivial⟩) ..
  rcases ht with ht | ht | ht | ht | ht | ht <;> exact absurd (ht ▸ hn) (by decide)

theorem DepsFile.safe_sync_naming (project : Node) : Safe .naming (sync project) :=
  safe_sync Regime.declares_naming (fun _ _ _ _ => ⟨trivial, trivial⟩) fun hP text =>
    ⟨⟨trivial, (Build.files_proper hP text).1⟩, trivial, (Build.files_proper hP text).2⟩

namespace Build

/-- Names stay apt while new nodes have apt names. -/
theorem apt_of_reach (hw : w.Sound) (ha : w.Apt) (hr : Reach Regime.naming.admits w w') : w'.Apt :=
  Lasts.reach lasts_apt hw (hr.mono fun _ he => he.1) ha

/-- Every stage keeps the names of files apt. -/
theorem apt_runStage (hw : w.Sound) (hp : w.Proper) (ha : w.Apt) {s : Stage} {r : StageReport}
    (h : (runStage c s).run w = .ok r w') : w'.Apt :=
  apt_of_reach hw ha (((safe_stage (Regime.carries_naming c) (DepsFile.safe_sync_naming _) s).runs w
    hp).ok hw h).1

/-- A build keeps the names of files apt, and proper in the file tree. -/
theorem reach_run_naming (hw : w.Sound) (hp : w.Proper) (s : Services) (name : String) (plan : Plan) :
    Reach Regime.naming.admits w ((run s name plan).after w) :=
  (runs_run (R := .naming) Regime.declares_naming hp fun {c} _ =>
    ⟨Regime.carries_naming c, DepsFile.safe_sync_naming _⟩).after hw

end Build

end

/-! ## Workspaces with a past -/

namespace Build

variable {w w' : Workspace}

/-- The workspaces that are reached from an empty graph.  Projects are set up and built, with any services
and any plans, and neither has to succeed.  Between them files are changed, time passes, and the graph may
be closed and opened again: its rows are as they were. -/
inductive Past : Workspace → Prop
  | empty {w : Workspace} (hp : w.Proper) (ht : w.tables = {}) : Past w
  | setup {w : Workspace} (h : Past w) (name : String) (path : Path) :
      Past ((Project.setup name path).after w)
  | build {w : Workspace} (h : Past w) (s : Services) (name : String) (plan : Plan) :
      Past ((run s name plan).after w)
  | later {w w' : Workspace} (h : Past w) (hw : w'.Sound) (hp : w'.Proper)
      (ht : w.tables.Agree w'.tables) : Past w'

/-- What holds of every workspace with a past. -/
structure Orderly (w : Workspace) : Prop where
  /-- The graph is in order. -/
  sound : w.Sound
  /-- Files have proper names. -/
  proper : w.Proper
  /-- The nodes of files have apt names. -/
  apt : w.Apt
  /-- Parents and edges stay within instances. -/
  partitioned : w.Partitioned

theorem orderly_of_empty (hp : w.Proper) (ht : w.tables = {}) : Orderly w where
  sound :=
    { wellFormed := ht ▸ Tables.wellFormed_empty
      spent := fun hu => by
        rw [ht] at hu
        rcases hu with h | h | h <;> cases h
      exact := fun hn => by
        rw [ht] at hn
        cases hn }
  proper := hp
  apt i n hn := by
    rw [ht] at hn
    cases hn
  partitioned := Workspace.partitioned_of_empty ht

/-- What makes nodes of apt names within the instance keeps a workspace orderly. -/
theorem Orderly.after {α : Type} (h : Orderly w) {x : Op α} (hx : Reach Regime.naming.admits w (x.after w))
    (hwithin : Safe (.within w.graph.instanceId (w.tables.foreign w.graph.instanceId)) x) :
    Orderly (x.after w) where
  sound := hx.sound h.sound
  proper := Regime.naming.lasts h.sound hx h.proper
  apt := apt_of_reach h.sound h.apt hx
  partitioned := by
    have hreach := (hwithin.runs w (h.partitioned.fenced h.sound w.graph.instanceId)).after h.sound
    exact (Workspace.Within.mk hreach h.sound h.partitioned).partitioned'

theorem Past.orderly (h : Past w) : Orderly w := by
  induction h with
  | empty hp ht => exact orderly_of_empty hp ht
  | setup h name path ih =>
      exact ih.after (((Project.safe_setup_naming name path).runs _ ih.proper).after ih.sound)
        (Project.own_setup name path).safe
  | build h s name plan ih =>
      exact ih.after (reach_run_naming ih.sound ih.proper s name plan) (within_run s name plan)
  | later h hw hp ht ih =>
      refine ⟨hw, hp, fun i n hn => ih.apt i n ?_, ih.partitioned.congr ht.nodes ht.edges⟩
      rwa [Tables.node?, ht.nodes] at hn

end Build

end IntentBuild
