import IntentBuild.Proofs.Build.Compiled
import IntentBuild.Proofs.Build.Specified

/-!
# The graph mirrors the directory of a project

A build that completes ends with a whole default sequence.  Of its stages lowering leaves the specifications
in the graph at the rows of their files, indexing leaves the intent files with their files and trees, and
compiling leaves the source files.  Every later stage keeps what the earlier ones have left, and so does the
last refresh (`Mirrored.refresh`).  So after the build the graph shows what is in the directory of the
project (`Build.mirrored_of_run`).

The file of the state store is out of the hands of the stages.
-/

namespace IntentBuild

open Op

/-! ## Paths of file nodes -/

namespace Graph

variable {w : Workspace} {kind : FileKind} {root : Node} {P : Path}

/-- The files below a root are listed once each, under the paths of the rows at which they stand. -/
theorem paths_fileNodes (hw : w.Sound) (ha : w.Apt) (hk : kind.Places) (hkind : kind.file ≠ kind.dir)
    (hP : root.pathEntry = .path P) (hbelow : ∀ i n, Relation.TransGen w.tables.IsParent root.id i →
      w.tables.node? i = some n → n.instanceId = w.graph.instanceId) :
    ∃ l, (fileNodes root kind).run w = .ok l w ∧ (l.map Prod.fst).Nodup ∧
      ∀ path, path ∈ l.map Prod.fst ↔ ∃ names i, Stands w kind root.id names i ∧ path = P.below names := by
  obtain ⟨l, hl⟩ := fileNodes_run hw hP kind
  have stands {e : Path × Node} (he : e ∈ l) :
      ∃ names, Stands w kind root.id names e.2.id ∧ e.1 = P.below names := by
    obtain ⟨names, hs⟩ := stands_of_mem_fileNodes hw hP hbelow hl he
    exact ⟨names, hs, path_of_mem_fileNodes hw hkind hP hl he hs fun m hm => (hs.isName ha hk m hm).1⟩
  refine ⟨l, hl, ?_, fun path => ⟨fun hpath => ?_, ?_⟩⟩
  · refine List.Nodup.map_on (fun e he e' he' heq => ?_) (.of_map _ (nodup_fileNodes hw hP hl))
    obtain ⟨names, hs, hpath⟩ := stands he
    obtain ⟨names', hs', hpath'⟩ := stands he'
    obtain rfl : names = names' :=
      List.append_cancel_left (congrArg Path.names ((hpath.symm.trans heq).trans hpath'))
    exact List.inj_on_of_nodup_map (nodup_fileNodes hw hP hl) he he' (hs.unique hw hs')
  · obtain ⟨e, he, rfl⟩ := List.mem_map.mp hpath
    obtain ⟨names, hs, hpath⟩ := stands he
    exact ⟨names, e.2.id, hs, hpath⟩
  · rintro ⟨names, i, hs, rfl⟩
    obtain ⟨d, name, n, hn, -⟩ := hs.keyed
    obtain rfl := hw.wellFormed.nodes.owned hn
    exact List.mem_map.mpr ⟨_, mem_fileNodes_of_stands hw hkind hP hl hn hs
      fun m hm => (hs.isName ha hk m hm).1, rfl⟩

end Graph

/-- All that is below a node has its instance. -/
theorem Workspace.Partitioned.below {w : Workspace} (h : w.Partitioned) {i j : String} {k : NodeKey} {n : Node}
    (hi : w.Keyed i k) (hj : Relation.TransGen w.tables.IsParent i j) (hn : w.tables.node? j = some n) :
    n.instanceId = k.instanceId := by
  induction hj generalizing n with
  | single hparent =>
      obtain ⟨m, hm, hp⟩ := hparent
      obtain ⟨r, hr, rfl⟩ := hi
      cases hm.symm.trans hn
      exact (h.parents hn hp hr).symm
  | tail hbelow hparent ih =>
      obtain ⟨m, hm, hp⟩ := hparent
      obtain ⟨q, -, b, hb, -⟩ := Relation.TransGen.tail'_iff.mp hbelow
      cases hm.symm.trans hn
      exact (h.parents hn hp hb).symm.trans (ih hb)

/-! ## The last refresh -/

namespace Build

variable {c : BuildContext} {p : Project} {R : Path} {w w' : Workspace} {r : StageReport}
  {f : Indexing.IntentFile}

/-- A refresh of the dependencies makes the changes of any regime that admits what declaring changes, if
it admits those of a manifest and of files. -/
theorem runs_refresh {I : Regime} (hI : I.Declares)
    (hC : ∀ old new, old.type = .deps → I.admits (.content old new))
    (hW : ∀ path text, I.admits (.write path text)) (hholds : I.holds w) (hw : w.Sound)
    (h : (runStage c .refresh).run w = .ok r w') : Reach I.admits w w' := by
  have hsafe : Safe I (runStage c .refresh) :=
    (DepsFile.safe_sync hI (fun old new ht _ => hC old new ht) fun _ text => ⟨hW _ _, hW _ _⟩).bind
      fun _ => .pure _
  exact ((hsafe.runs w hholds).ok hw h).1

/-- What the stages before the last refresh have left for the intent files. -/
structure Built (p : Project) (R : Path) (w : Workspace) : Prop where
  /-- The intent files in the graph have their files. -/
  backed : Graph.Backed w Graph.intentKind p.intent.id (R.child "intent")
  /-- Those with a target have their trees. -/
  indexed : ∀ f ∈ Indexing.listed w.files (R.child "intent"), Indexing.Indexed p f w
  /-- They have their results and their source files. -/
  compiled : ∀ f ∈ Indexing.listed w.files (R.child "intent"),
    Compilation.Compiled p (R.child "src") f w

/-- The intent files that are listed stay while the files in the intent directory are left alone. -/
theorem listed_runStage {s : Stage} (hc : c.project.Placed R) (hready : Ready c w)
    (h : (runStage c s).run w = .ok r w') (hs : ¬ s.Area "intent") :
    Indexing.listed w'.files (R.child "intent") = Indexing.listed w.files (R.child "intent") := by
  rw [Indexing.listed, Indexing.listed, Path.child_name R (by decide),
    filesBelow_runStage hc hready.sound hready.proper.files h hs (by decide)]

/-- A refresh keeps it. -/
theorem Built.refresh (h : Built c.project R w) (hc : c.project.Placed R) (hready : Ready c w)
    (hrun : (runStage c .refresh).run w = .ok r w') : Built c.project R w' := by
  have hw := hready.sound
  have hupheld : Reach Event.Upholds w w' := runs_refresh (I := .upholding) Regime.declares_upholding
    (fun _ _ _ => ⟨trivial, trivial, trivial⟩) (fun _ _ => ⟨trivial, trivial, trivial⟩) trivial hw hrun
  have hlisted := listed_runStage hc hready hrun (by simp [Stage.Area])
  refine ⟨h.backed.upheld hw hupheld, fun f hf => ?_, fun f hf => ?_⟩
  · exact (h.indexed f (hlisted ▸ hf)).reach hw hupheld.spares_of_upholds
  · rw [hlisted] at hf
    refine (h.compiled f hf).reach hw (fun j hj => ?_) ?_
    · exact runs_refresh (I := .settling c.project.source.id (Compilation.sourceRow f) j)
        Regime.declares_settling (fun old _ ht _ hsource => absurd (ht.symm.trans hsource) (by decide))
        (fun _ _ => trivial) ⟨hw, hj⟩ hw hrun
    · have hclears := clears_runStage hc hw hready.proper.files hrun (a := "src") (by simp [Stage.Area])
      refine hclears.mono fun e he => ?_
      have hkey : w.files.key ((R.child "src").below (Compilation.sourceRow f)) =
          w.files.key R ++ "src" :: Compilation.sourceRow f := by
        rw [(Compilation.hasSource_of_mem hready.proper.files hf).key, Path.child_name R (by decide),
          w.files.key_below R (by decide), List.append_assoc]
        rfl
      exact hkey ▸ he _

/-- Indexing and compiling, one unit at a time, leave it. -/
theorem built_of_compilation (hone : c.runner.concurrency ≤ 1) (hc : c.project.Placed R)
    (hready : Ready c w) (ha : w.Apt) {w₁ : Workspace} {r₁ : StageReport}
    (hindex : (runStage c .indexing).run w = .ok r w₁)
    (hcompile : (runStage c .compilation).run w₁ = .ok r₁ w') : Built c.project R w' := by
  have hintent : (R.child "intent").names ≠ [] := R.child_ne_nil (by decide)
  have hsource : (R.child "src").names ≠ [] := R.child_ne_nil (by decide)
  have hready₁ := hready.stage hindex
  obtain ⟨hbacked, hindexed⟩ := Indexing.run_eq_ok hone hc.intent hintent hready.sound hready.proper ha
    hindex
  obtain ⟨hspared, hbacked', hcompiled⟩ := Compilation.run_eq_ok hone hc.intent hintent hc.source
    hsource hready₁.sound hready₁.proper.files hbacked hcompile
  have hlisted := listed_runStage hc hready hindex (by simp [Stage.Area])
  have hlisted' := listed_runStage hc hready₁ hcompile (by simp [Stage.Area])
  refine ⟨hbacked', fun f hf => ?_, fun f hf => hcompiled f (hlisted' ▸ hf)⟩
  exact (hindexed f (hlisted ▸ hlisted' ▸ hf)).reach hready₁.sound hspared

/-! ## Builds -/

/-- The graph of a project shows what is in its directory. -/
structure Mirrored (p : Project) (R : Path) (w : Workspace) : Prop where
  /-- The specifications in the graph are listed under the paths of the files that are shown. -/
  specs : ∃ l, (Graph.fileNodes p.specs Graph.specKind).run w = .ok l w ∧
    (l.map Prod.fst).Perm (w.files.listFiles (R.child "specs") Stage.markdown)
  /-- Every intent file in the graph has its file. -/
  intents : ∃ l, (Graph.fileNodes p.intent Graph.intentKind).run w = .ok l w ∧
    ∀ e ∈ l, w.files.isFile e.1 = true
  /-- Every intent file with a target has a node with its tree and its result, and this is linked to the
  node of its source file, which is there. -/
  sources : ∀ f ∈ Indexing.listed w.files (R.child "intent"), ∃ i j,
    Graph.Stands w Graph.intentKind p.intent.id f.row i ∧
      Graph.HasChild w i .indexedData Indexing.dataName ∧
      Graph.HasChild w i .compilerData Compilation.dataName ∧
      Compilation.Sourced w p (R.child "src") (Compilation.sourceRow f) i j

/-- A build of the default plan that completes ends with a default sequence, and names are apt where it
starts. -/
theorem apt_of_run {s : Services} {name : String} {summary : BuildSummary} (hw : w.Sound) (hp : w.Proper)
    (ha : w.Apt) (h : (run s name .default).run w = .ok summary w') : ∃ c v w₁ w₂ w₃ w₄ w₅,
      c.project.Found name w ∧ (c.runner.concurrency : Int) = s.settings.maxConcurrency ∧ Ready c v ∧
        v.Apt ∧ Sequence c v w₁ w₂ w₃ w₄ w₅ w' := by
  obtain ⟨c, w₀, v, front, hstart, hfront, w₁, w₂, w₃, w₄, w₅, hseq⟩ := run_eq_ok h
  obtain ⟨hfound, hready⟩ := ready_of_start hw hp hstart
  have hnamed := (((safe_start (R := .naming) Regime.declares_naming s name).runs w hp).ok hw hstart).1
  obtain ⟨hready, ha⟩ := hfront.keeps (I := fun v => Ready c v ∧ v.Apt)
    (fun hI hrun => ⟨hI.1.stage hrun, apt_runStage hI.1.sound hI.1.proper hI.2 hrun⟩)
    ⟨hready, apt_of_reach hw ha hnamed⟩
  exact ⟨c, v, w₁, w₂, w₃, w₄, w₅, hfound, concurrency_of_start hstart, hready, ha, hseq⟩

/-- What every build that completes leaves, one unit at a time. -/
theorem left_by_run {s : Services} {name : String} {summary : BuildSummary}
    (hone : s.settings.maxConcurrency ≤ 1) (hw : w.Sound) (hp : w.Proper) (ha : w.Apt)
    (hfound : p.Found name w) (hR : p.Placed R) (h : (run s name .default).run w = .ok summary w') :
    Specified p R w' ∧ Built p R w' := by
  obtain ⟨c, v, w₁, w₂, w₃, w₄, w₅, hfound', hlimit, hready, ha, hseq⟩ := apt_of_run hw hp ha h
  obtain rfl := hfound.unique hfound'
  obtain ⟨_, htechStack⟩ := hseq.techStack
  obtain ⟨_, hlowering⟩ := hseq.lowering
  obtain ⟨_, hfirst⟩ := hseq.firstRefresh
  obtain ⟨_, hindexing⟩ := hseq.indexing
  obtain ⟨_, hcompilation⟩ := hseq.compilation
  obtain ⟨_, hlast⟩ := hseq.lastRefresh
  have next {s : Stage} {r : StageReport} {v v' : Workspace} (hv : Ready c v ∧ v.Apt)
      (hrun : (runStage c s).run v = .ok r v') : Ready c v' ∧ v'.Apt :=
    ⟨hv.1.stage hrun, apt_runStage hv.1.sound hv.1.proper hv.2 hrun⟩
  have h₂ := next (next ⟨hready, ha⟩ htechStack) hlowering
  have h₃ := next h₂ hfirst
  have h₄ := next h₃ hindexing
  have h₅ := next h₄ hcompilation
  have hspecified := ((((specified_lowering hR hready ha htechStack hlowering).stage hR h₂.1 (by decide)
    hfirst).stage hR h₃.1 (by decide) hindexing).stage hR h₄.1 (by decide) hcompilation).stage hR h₅.1
      (by decide) hlast
  exact ⟨hspecified, (built_of_compilation (by omega) hR h₃.1 h₃.2 hindexing hcompilation).refresh hR
    h₅.1 hlast⟩

/-- After a build, all that is below a root of a project belongs to the instance. -/
theorem instanceId_below_run {s : Services} {name : String} {plan : Plan} {root : Node} {k : NodeKey}
    (hw : w.Sound) (hbase : w.Base root.id) (hroot : w.tables.findNode? k = some root)
    (hk : k.instanceId = w.graph.instanceId) (hpartitioned : ((run s name plan).after w).Partitioned) :
    ∀ j m, Relation.TransGen ((run s name plan).after w).tables.IsParent root.id j →
      ((run s name plan).after w).tables.node? j = some m →
        m.instanceId = ((run s name plan).after w).graph.instanceId := by
  have hruns : Runs (Event.Spares (w.Above root.id)) w (run s name plan) fun _ _ => True :=
    runs_run (R := .sparing w (w.Above root.id)) Regime.declares_sparing (.refl w _) fun {c} _ =>
      ⟨(Regime.builds_sparing c (hbase.shelter hw) hbase.specs.lacks_above
        hbase.intent.lacks_above).carries,
        DepsFile.safe_sync Regime.declares_sparing (fun _ _ _ _ => trivial) fun _ _ => ⟨trivial, trivial⟩⟩
  have hreach := hruns.after hw
  have hkeyed : ((run s name plan).after w).Keyed root.id k :=
    Lasts.reach (w.lasts_stay _) hw hreach (.refl w _) root.id k .refl
      ((Workspace.Keyed.findNode? hw).mpr ⟨root, hroot, rfl⟩)
  intro j m hj hm
  rw [hreach.instanceId_eq, ← hk]
  exact hpartitioned.below hkeyed hj hm

/-- After a build of the default plan that completes, one unit at a time, the graph of the project shows
what is in its directory, whatever builds and changes of files were before. -/
theorem mirrored_of_run {s : Services} {name : String} {summary : BuildSummary} (hpast : Past w)
    (hfound : p.Found name w) (hR : p.Placed R) (hone : s.settings.maxConcurrency ≤ 1)
    (h : (run s name .default).run w = .ok summary w') : Mirrored p R w' := by
  have hw := hpast.orderly.sound
  obtain ⟨hspecified, hbuilt⟩ := left_by_run hone hw hpast.orderly.proper hpast.orderly.apt hfound hR h
  obtain ⟨hw', hp', ha', hpartitioned⟩ := (hpast.build s name .default).orderly
  obtain ⟨hspecs, hintent, -⟩ := hfound.bases hw
  have hspecs := instanceId_below_run hw hspecs hfound.specs rfl hpartitioned
  have hintent := instanceId_below_run hw hintent hfound.intent rfl hpartitioned
  rw [after_of_run h] at hw' hp' ha' hspecs hintent
  have hspecKind : Graph.specKind.Places := ⟨.inl rfl, .inr (.inl rfl)⟩
  have hintentKind : Graph.intentKind.Places := ⟨.inr (.inr (.inl rfl)), .inr (.inr (.inr (.inl rfl)))⟩
  obtain ⟨l, hl, hnodup, hpaths⟩ := Graph.paths_fileNodes hw' ha' hspecKind (by decide) hR.specs hspecs
  obtain ⟨l', hl', -, hpaths'⟩ := Graph.paths_fileNodes hw' ha' hintentKind (by decide) hR.intent hintent
  refine ⟨⟨l, hl, (List.perm_ext_iff_of_nodup hnodup ?_).mpr fun path => ?_⟩,
    ⟨l', hl', fun e he => ?_⟩, fun f hf => ?_⟩
  · refine (FileTree.nodup_filesBelow hp'.files.entries _ _).map fun names names' heq => ?_
    exact List.append_cancel_left (congrArg Path.names heq)
  · rw [hpaths, FileTree.listFiles, List.mem_map]
    constructor
    · rintro ⟨names, i, hs, rfl⟩
      exact ⟨names, (hspecified names).mp ⟨i, hs⟩, rfl⟩
    · rintro ⟨names, hnames, rfl⟩
      obtain ⟨i, hs⟩ := (hspecified names).mpr hnames
      exact ⟨names, i, hs, rfl⟩
  · obtain ⟨names, i, hs, hpath⟩ := (hpaths' e.1).mp (List.mem_map_of_mem he)
    exact hpath ▸ hbuilt.backed names i hs
  · obtain ⟨i, hs, hindexed⟩ := hbuilt.indexed f hf
    obtain ⟨i', j, hs', hcompiled, hsourced⟩ := hbuilt.compiled f hf
    obtain rfl := hs.unique hw' hs'
    exact ⟨i, j, hs, hindexed, hcompiled, hsourced⟩

/-! ## A project with a specification and an intent file -/

/-- Services whose model gives every unit the same answer: no intent files, an empty tree, and a source. -/
def generous : Services where
  settings := {}
  tools := { byTool := [("specs-to-intent", "m"), ("indexer", "m"), ("compiler", "m")], timeout := 120 }
  endpoint _ _ :=
    ⟨.texts ["\x7b\"astTree\":\x7b\x7d,\"targetSource\":\"[]\"\x7d"], false⟩

/-- An empty workspace with a store in a directory. -/
def storing (store : String) : Workspace :=
  { Project.blank with graph := { root := .ofText store, instanceId := "default" } }

/-- A new project with a specification and an intent file. -/
@[irreducible]
def stocked (w : Workspace) (intent : String) : Workspace :=
  (writeIfChanged (.ofText intent) "f\n").after ((writeIfChanged (.ofText "/work/demo/specs/a.md") "a\n").after
    ((Project.setup "demo" (.ofText "/work/demo")).after w))

/-- The project after a compilation without models, which has failed but given the intent file a node. -/
@[irreducible]
def tried (w : Workspace) (dir name : String) : Workspace :=
  Project.spelling name ((run silent "demo" { stages := [.compilation] }).after (stocked w (dir ++ name)))

theorem Past.written (h : Past w) (full text : String) :
    Past ((writeIfChanged (.ofText full) text).after w) := by
  obtain ⟨hw, hp, htables, -⟩ := tables_written h.orderly.sound h.orderly.proper full text
  exact h.later hw hp (htables ▸ Tables.agree_refl w.tables)

theorem past_storing (store : String) : Past (storing store) :=
  .empty ⟨Project.proper_blank.files, Project.proper_blank.workingDirectory,
    fun _ hn => Path.isName_of_mem_ofText hn⟩ rfl

theorem Past.stocked (h : Past w) (intent : String) : Past (stocked w intent) := by
  unfold Build.stocked
  exact ((h.setup _ _).written _ _).written _ _

theorem Past.tried (h : Past w) (dir name : String) : Past (tried w dir name) := by
  unfold Build.tried
  rw [Project.spelling_eq]
  exact (h.stocked _).build _ _ _

/-- The project with a specification and an intent file. -/
def sample : Workspace := tried (storing "/work/store") "/work/demo/intent/" "f.ts.md"

/-- The specification, the intent file and its source file are mirrored. -/
theorem mirrored_of_run_sample : ∃ (p : Project) (summary : BuildSummary) (w' : Workspace),
    (run generous "demo" .default).run sample = .ok summary w' ∧
      w'.files.listFiles ((Path.ofText "/work/demo").child "specs") Stage.markdown ≠ [] ∧
      Indexing.listed w'.files ((Path.ofText "/work/demo").child "intent") ≠ [] ∧
      Mirrored p (.ofText "/work/demo") w' := by
  have htest : Project.inPlace sample (fun _ => (run generous "demo" .default).gives sample fun _ w' =>
      !(w'.files.listFiles ((Path.ofText "/work/demo").child "specs") Stage.markdown).isEmpty &&
        !(Indexing.listed w'.files ((Path.ofText "/work/demo").child "intent")).isEmpty) = true := by
    decide +kernel
  obtain ⟨p, hfound, hplaced, hbuilt⟩ := Project.found_of_inPlace htest
  obtain ⟨summary, w', hrun, hlisted⟩ := gives_eq_true.mp hbuilt
  rw [Bool.and_eq_true, Bool.not_eq_true', Bool.not_eq_true', List.isEmpty_eq_false_iff,
    List.isEmpty_eq_false_iff] at hlisted
  exact ⟨p, summary, w', hrun, hlisted.1, hlisted.2,
    mirrored_of_run ((past_storing _).tried _ _) hfound hplaced (by decide) hrun⟩

end Build

end IntentBuild
