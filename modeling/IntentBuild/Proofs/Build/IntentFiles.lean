import IntentBuild.Proofs.Build.Applied
import IntentBuild.Proofs.Build.Pruning

/-!
# The nodes of the intent files

Indexing and compiling go through the intent files with a target, which are read off the file tree
(`Indexing.intentFiles_eq_ok`).  Indexing forgets the nodes of files that are gone, and from there on no
node comes but for a file that is there, and none goes.  So every intent file in the graph has its file
(`Graph.Backed`), and each of those with a target has its derived data (`Indexing.run_eq_ok`).
-/

namespace IntentBuild

open Op

/-! ## What stays after pruning -/

/-- No node goes, no intent file comes, and no file is removed. -/
def Event.Upholds (e : Event) : Prop :=
  e.Spares (fun _ => True) ∧ e.Omits .intentFile ∧ e.Retains

/-- The changes that leave the intent files in the graph with their files. -/
def Regime.upholding : Regime := .only Event.Upholds

namespace Regime

theorem declares_upholding : upholding.Declares where
  manifest _ ht _ := ⟨trivial, by simp [Event.Omits, ht], trivial⟩
  redeclare _ _ _ := ⟨trivial, trivial, trivial⟩
  link _ := ⟨trivial, trivial, trivial⟩
  unlink _ _ := ⟨trivial, trivial, trivial⟩

theorem records_upholding : upholding.Records where
  keep _ _ _ _ _ := ⟨trivial, trivial, trivial⟩
  calls := ⟨trivial, trivial, trivial⟩
  record _ := ⟨trivial, trivial, trivial⟩
  dropRecord _ := ⟨trivial, trivial, trivial⟩

theorem derives_upholding (file : Node) {type : NodeType} (ht : type ≠ .intentFile) :
    upholding.Derives file type where
  made _ hn _ _ := ⟨trivial, fun h => ht (hn.symm.trans h), trivial⟩
  changed _ _ _ _ := ⟨trivial, trivial, trivial⟩

theorem places_upholding (root : Node) {kind : Graph.FileKind} (hd : kind.dir ≠ .intentFile)
    (hf : kind.file ≠ .intentFile) : upholding.Places root kind :=
  fun _ _ _ _ hn => ⟨trivial, hn.omits hd hf, trivial⟩

end Regime

section

variable {w w' : Workspace} {kind : Graph.FileKind} {root i : String} {P : Path} {names : List String}

theorem Reach.spares_of_upholds (h : Reach Event.Upholds w w') : Reach (Event.Spares fun _ => True) w w' :=
  h.mono fun _ he => he.1

theorem Graph.Backed.upheld (h : Graph.Backed w Graph.intentKind root P) (hw : w.Sound)
    (hr : Reach Event.Upholds w w') : Graph.Backed w' Graph.intentKind root P :=
  h.reach hw (hr.mono fun _ he => he.2)

/-- A node has a child of a type and a name. -/
def Graph.HasChild (w : Workspace) (i : String) (type : NodeType) (name : String) : Prop :=
  ∃ d, w.Keyed d ⟨some i, w.graph.instanceId, type, name⟩

theorem Graph.HasChild.reach {type : NodeType} {name : String} (h : Graph.HasChild w i type name)
    (hw : w.Sound) (hr : Reach (Event.Spares fun _ => True) w w') : Graph.HasChild w' i type name := by
  obtain ⟨d, hd⟩ := h
  exact ⟨d, hr.instanceId_eq ▸ Lasts.reach (w.lasts_stay fun _ => True) hw hr (.refl w _) d _ trivial hd⟩

/-- A unit deletes no node before its result is applied. -/
theorem Event.Prepares.spares {e : Event} (he : e.Prepares) : e.Spares fun _ => True := by
  cases e <;> first | exact he.elim | trivial

/-- The node that a unit derives stays while it is stamped. -/
theorem Event.Stamps.spares {e : Event} (he : e.Stamps) : e.Spares fun _ => True := by
  cases e <;> first | exact he.elim | trivial

end

namespace Indexing

variable {c : BuildContext} {p : Project} {P : Path} {f : IntentFile} {fs : List IntentFile}
  {w w' : Workspace} {names : List String}

/-! ## The list of the intent files -/

/-- The row of names that the relative path of an intent file spells. -/
def IntentFile.row (f : IntentFile) : List String := Text.splitAt '/' f.relative

/-- The intent file at a row of names below a directory, if it has a target. -/
def fileAt? (P : Path) (names : List String) : Option IntentFile :=
  (P.below names).targetExtension?.map fun target =>
    { path := P.below names, relative := Text.joinWith "/" names, target }

/-- The intent files with a target below a directory. -/
def listed (t : FileTree) (P : Path) : List IntentFile :=
  (t.filesBelow P Stage.markdown).filterMap (fileAt? P)

theorem mem_listed {t : FileTree} : f ∈ listed t P ↔
    ∃ names ∈ t.filesBelow P Stage.markdown, fileAt? P names = some f := by
  rw [listed, List.mem_filterMap]

/-- The intent file at a row has the row for its relative path. -/
theorem eq_of_fileAt? (hrow : Graph.IsRow names) (h : fileAt? P names = some f) :
    f.path = P.below names ∧ f.relative = Text.joinWith "/" names ∧ f.row = names := by
  obtain ⟨target, -, rfl⟩ := Option.map_eq_some_iff.mp h
  exact ⟨rfl, rfl, hrow.splitAt_joinWith⟩

/-- The row of an intent file that is listed. -/
theorem row_of_mem_listed (ht : w.files.Proper) (h : f ∈ listed w.files P) :
    Stage.Row w P f.path f.row ∧ f.relative = Text.joinWith "/" f.row := by
  obtain ⟨names, hnames, hf⟩ := mem_listed.mp h
  have hrow := Stage.row_of_mem_filesBelow ht hnames
  obtain ⟨hpath, hrelative, rfl⟩ := eq_of_fileAt?
    ⟨hrow.shown.nonempty, fun n hn => ⟨hrow.isName n hn, hrow.shown.not_up n hn⟩⟩ hf
  exact ⟨hpath ▸ hrow, hrelative⟩

theorem nodup_listed {t : FileTree} (ht : t.Proper) (P : Path) : (listed t P).Nodup := by
  refine (FileTree.nodup_filesBelow ht.entries P Stage.markdown).filterMap ?_
  intro names names' f hf hf'
  obtain ⟨_, -, rfl⟩ := Option.map_eq_some_iff.mp hf
  obtain ⟨_, -, heq⟩ := Option.map_eq_some_iff.mp hf'
  injection heq with hpath
  exact (List.append_cancel_left (congrArg Path.names hpath)).symm

/-- An intent file that is listed has no other's row. -/
theorem eq_of_row_eq (ht : w.files.Proper) {a b : IntentFile} (ha : a ∈ listed w.files P)
    (hb : b ∈ listed w.files P) (h : a.row = b.row) : a = b := by
  obtain ⟨names, hnames, hf⟩ := mem_listed.mp ha
  obtain ⟨names', hnames', hf'⟩ := mem_listed.mp hb
  obtain ⟨hrow, -⟩ := row_of_mem_listed ht ha
  obtain ⟨hrow', -⟩ := row_of_mem_listed ht hb
  have hpath : a.path = b.path := by rw [hrow.path, hrow'.path, h]
  obtain ⟨_, htarget, rfl⟩ := Option.map_eq_some_iff.mp hf
  obtain ⟨_, htarget', rfl⟩ := Option.map_eq_some_iff.mp hf'
  obtain rfl : names = names' := List.append_cancel_left (congrArg Path.names hpath)
  rw [htarget, Option.some.injEq] at htarget'
  rw [htarget']

theorem runs_intentFile {A : Event → Prop} (hparts : Graph.HasParts c.project.intent (P.below names).text
    names) : Runs A w (intentFile? c (P.below names)) fun o _ => o = fileAt? P names := by
  have hrelative : (Graph.relativePath c.project.intent (P.below names).text).run w =
      .ok (Text.joinWith "/" names) w := by
    rw [Graph.relativePath, bind_ok (hparts.run w)]
    rfl
  refine .reads hrelative ?_
  unfold fileAt?
  split
  · rename_i htarget
    rw [htarget]
    exact .pure rfl
  · rename_i htarget
    rw [htarget]
    exact (runs_notify _).bind fun _ _ _ _ _ => .pure rfl

/-- The stages go through the intent files that are listed. -/
theorem intentFiles_eq_ok (hP : c.project.intent.pathEntry = .path P) (hne : P.names ≠ [])
    (hw : w.Sound) (ht : w.files.Proper) (h : (intentFiles c).run w = .ok fs w') :
    Reach Event.None w w' ∧ fs = listed w.files P := by
  obtain ⟨paths, w₀, hpaths, h₁⟩ := bind_eq_ok.mp h
  obtain rfl := (Stage.reader_markdownFiles _).eq hpaths
  obtain ⟨P', hP', rfl⟩ := Stage.markdownFiles_eq_ok hpaths
  cases hP.symm.trans hP'
  obtain ⟨os, w₁, hos, h₂⟩ := bind_eq_ok.mp h₁
  cases h₂
  have hrows : w₀.files.listFiles P Stage.markdown =
      (w₀.files.filesBelow P Stage.markdown).map P.below := rfl
  rw [hrows, List.mapM_map] at hos
  have each : Runs Event.None w₀ ((w₀.files.filesBelow P Stage.markdown).mapM
      (intentFile? c ∘ P.below)) fun os _ => os = (w₀.files.filesBelow P Stage.markdown).map (fileAt? P) := by
    refine Runs.mapM_fold (J := fun bs os _ => os = bs.map (fileAt? P))
      (fun bs os names hpre w₁ _ _ hJ => ?_) rfl
    have hrow := Stage.row_of_mem_filesBelow ht
      (hpre.subset (List.mem_append_right bs (List.mem_singleton_self names)))
    refine (runs_intentFile (hrow.hasParts hP hne)).weaken fun o _ _ ho => ?_
    rw [hJ, ho, List.map_append, List.map_singleton]
  obtain ⟨hreach, rfl⟩ := each.ok hw hos
  exact ⟨hreach, by rw [listed, List.filterMap_map]; rfl⟩

/-! ## What indexing leaves -/

/-- The node of an intent file has its tree. -/
def Indexed (p : Project) (f : IntentFile) (w : Workspace) : Prop :=
  ∃ i, Graph.Stands w Graph.intentKind p.intent.id f.row i ∧ Graph.HasChild w i .indexedData dataName

theorem Indexed.reach (h : Indexed p f w) (hw : w.Sound)
    (hr : Reach (Event.Spares fun _ => True) w w') : Indexed p f w' := by
  obtain ⟨i, hs, hchild⟩ := h
  exact ⟨i, hs.reach hw hr, hchild.reach hw hr⟩

section

variable {tool : ToolConfig} {text : String} {file : Node}

theorem generative_unit : (unit c tool f text file).Generative :=
  ⟨.pure _, ⟨file, _, _, rfl, by decide⟩, fun _ _ _ => rfl, .pure _,
    fun _ _ hx => List.mem_singleton.mp hx ▸ heedless_apply file _⟩

/-- A unit that succeeds leaves the tree of its file. -/
theorem hasChild_of_unit {r : Runner} (hw : w.Sound) {report : UnitReport IndexResult}
    (h : ((unit c tool f text file).run r).run w = .ok report w') :
    Graph.HasChild w' file.id .indexedData dataName := by
  have hfits : (unit c tool f text file).Fits .any :=
    fits_unit ((Regime.builds_any c).carries.derives file) ..
  obtain ⟨w₁, w₂, hdone⟩ := Work.run_eq_ok generative_unit hfits hw h
  have hw₁ := hdone.prepared.sound hw
  have happlied := hdone.applied
  rw [Work.apply_eq_step (x := apply file report.result) rfl] at happlied
  obtain ⟨d, w₃, hupsert, hend⟩ := bind_eq_ok.mp happlied
  cases hend
  obtain ⟨hreach, hkey, -, hd⟩ := (Graph.runs_upsertDerived (A := Event.Any) (fun _ _ _ _ => trivial)
    fun _ _ _ _ => trivial).ok hw₁ hupsert
  refine Graph.HasChild.reach ⟨d.id, d, hd, ?_⟩ (hreach.sound hw₁)
    (hdone.stamped.mono fun _ he => he.spares)
  rw [hkey, hreach.instanceId_eq]

end

/-- The unit is that of an intent file with a node. -/
def Made (c : BuildContext) (w : Workspace) (f : IntentFile) (u : Work IndexResult) : Prop :=
  ∃ tool text file, u = unit c tool f text file ∧
    Graph.Stands w Graph.intentKind c.project.intent.id f.row file.id

/-- Where places are made for files that are there, all files in the graph are there. -/
theorem backed_of_places {w₁ w₂ : Workspace} (hw : w.Sound)
    (hb : Graph.Backed w Graph.intentKind c.project.intent.id P) (ht : w.files.Proper)
    (hr : Reach Event.None w w₁) (hfiles : Reach Event.Retains w w₂)
    (hcome : ∀ {names i}, Graph.Stands w₂ Graph.intentKind c.project.intent.id names i →
      Graph.Stands w₁ Graph.intentKind c.project.intent.id names i ∨
        names ∈ (listed w.files P).map IntentFile.row) :
    Graph.Backed w₂ Graph.intentKind c.project.intent.id P := by
  intro names i hs
  refine hfiles.isFile ?_
  rcases hcome hs with hs | hmem
  · exact hb names i ((hr.mono fun _ he => he.elim).stands hw hs)
  · obtain ⟨f, hf, rfl⟩ := List.mem_map.mp hmem
    obtain ⟨hrow, -⟩ := row_of_mem_listed ht hf
    exact hrow.path ▸ hrow.isFile

/-- The units are made for the intent files that are listed, after pruning. -/
theorem works_eq_ok (hP : c.project.intent.pathEntry = .path P) (hne : P.names ≠ []) (hw : w.Sound)
    (ht : w.Proper) (ha : w.Apt) {us : List (Work IndexResult)} (h : (works c).run w = .ok us w') :
    w'.Sound ∧ Graph.Backed w' Graph.intentKind c.project.intent.id P ∧
      List.Forall₂ (Made c w') (listed w.files P) us := by
  obtain ⟨_, w₁, hprune, h₁⟩ := bind_eq_ok.mp h
  obtain ⟨hpruned, hbacked⟩ := Stage.backed_pruneMissing hw ha
    ⟨.inr (.inr (.inl rfl)), .inr (.inr (.inr (.inl rfl)))⟩ (by decide) hP hprune
  have hw₁ := hpruned.sound hw
  have ht₁ : w₁.Proper := (hpruned.mono fun _ he => Build.proper_of_not_writes he.2).proper ht
  have hlisted : listed w₁.files P = listed w.files P := by
    rw [listed, listed, hpruned.filesBelow_of_prunes]
  obtain ⟨tool, w₂, htool, h₂⟩ := bind_eq_ok.mp h₁
  obtain rfl := (c.reader_toolConfig _).eq htool
  obtain ⟨fs, w₃, hfs, hmake⟩ := bind_eq_ok.mp h₂
  obtain ⟨hlisting, rfl⟩ := intentFiles_eq_ok hP hne hw₁ ht₁.files hfs
  have hw₃ := hlisting.sound hw₁
  have hrow : ∀ f ∈ listed w₂.files P, Graph.HasParts c.project.intent f.path.text f.row := fun f hf =>
    (row_of_mem_listed ht₁.files hf).1.hasParts hP hne
  obtain ⟨hmade, hunits, hcome⟩ := (Graph.rows_mapM_placeOf (w := w₃) (by decide) hrow fun f file =>
    (reader_readText f.path).bind fun text => .pure (unit c tool f text file)).ok hw₃ hmake
  refine ⟨hmade.sound hw₃, backed_of_places hw₁ hbacked ht₁.files hlisting ?_ hcome, ?_⟩
  · refine (hlisting.of_quiet).trans (hmade.mono fun e ⟨_, he⟩ => ?_)
    cases e <;> first | exact he.elim | trivial
  · rw [← hlisted]
    refine hunits.imp fun f u hu => ?_
    obtain ⟨file, v, hs, hrun⟩ := hu
    obtain ⟨text, v', -, hend⟩ := bind_eq_ok.mp hrun
    cases hend
    exact ⟨tool, text, file, rfl, hs⟩

/-- After indexing one unit at a time, every intent file in the graph has its file, and those with a
target have their trees. -/
theorem run_eq_ok (hone : c.runner.concurrency ≤ 1) (hP : c.project.intent.pathEntry = .path P)
    (hne : P.names ≠ []) (hw : w.Sound) (ht : w.Proper) (ha : w.Apt) {r : StageReport} (h : (run c).run w = .ok r w') :
    Graph.Backed w' Graph.intentKind c.project.intent.id P ∧
      ∀ f ∈ listed w.files P, Indexed c.project f w' := by
  obtain ⟨us, w₁, hworks, h⟩ := bind_eq_ok.mp h
  obtain ⟨reports, w₂, hall, h⟩ := bind_eq_ok.mp h
  cases h
  obtain ⟨hw₁, hbacked, hmade⟩ := works_eq_ok hP hne hw ht ha hworks
  have fits {tool : ToolConfig} {f : IntentFile} {text : String} {file : Node} :
      (unit c tool f text file).Fits .upholding :=
    fits_unit (Regime.derives_upholding file (by decide)) ..
  have step {f : IntentFile} {u : Work IndexResult} {v v' : Workspace} {report : UnitReport IndexResult}
      (hu : Made c w₁ f u) (hv : v.Sound) (hrun : (u.run c.runner).run v = .ok report v') :
      Reach (Event.Spares fun _ => True) v v' := by
    obtain ⟨_, _, _, rfl, -⟩ := hu
    exact (((fits.run Regime.records_upholding c.runner).runs v trivial).ok hv hrun).1.spares_of_upholds
  have hunits := Work.runAll_each (R := .upholding) (D := Indexed c.project) hone Regime.records_upholding
    (fun u hu => by
      obtain ⟨_, -, _, _, _, rfl, -⟩ := Reader.mem_of_forall₂ hmade hu
      exact fits) hw₁ trivial (nodup_listed ht.files P) hmade
    (fun f _ u v v' report hu hv hreach hrun => by
      have hstep := step hu hv hrun
      obtain ⟨_, _, file, rfl, hs⟩ := hu
      exact ⟨file.id, (hs.reach hw₁ hreach.spares_of_upholds).reach hv hstep, hasChild_of_unit hv hrun⟩)
    (fun _ _ _ _ _ _ _ _ _ hu hv _ hrun hD => hD.reach hv (step hu hv hrun)) hall
  exact ⟨hbacked.upheld hw₁ hunits.1, hunits.2⟩

end Indexing

end IntentBuild
