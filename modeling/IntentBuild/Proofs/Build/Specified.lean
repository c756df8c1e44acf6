import IntentBuild.Proofs.Build.LastWins
import IntentBuild.Proofs.Build.Pruning

/-!
# The nodes of the specifications

After lowering, specifications stand in the graph at the rows of the files below their root and at no
other (`Lowering.rowsAre_run`).  The tech stack has made the node of its own specification, pruning has
taken those whose files are gone, and the units were made for all the rest.  No later stage makes such a
node, and what the later stages delete is not above one, so the rows stay (`Build.rowsAre_runStage`).
-/

namespace IntentBuild

open Op

/-! ## Rows that stay -/

/-- The files of a kind below a root stand at the rows of a list, and at no other. -/
def Graph.RowsAre (w : Workspace) (kind : FileKind) (root : String) (rows : List (List String)) : Prop :=
  ∀ names, (∃ i, Stands w kind root names i) ↔ names ∈ rows

/-- The rows stay while no file of the kind comes, and none that stands goes. -/
theorem Graph.RowsAre.reach {w w' : Workspace} {kind : FileKind} {root : String} {rows : List (List String)}
    {type : NodeType} (h : RowsAre w kind root rows) (hw : w.Sound) (hroot : w.Clear type root)
    (hd : kind.dir ≠ type) (hf : kind.file ≠ type)
    (hr : Reach (fun e => e.Omits kind.file ∧ e.Spares (w.Clear type)) w w') :
    RowsAre w' kind root rows := by
  refine fun names => ⟨fun ⟨i, hs⟩ => ?_, fun hnames => ?_⟩
  · exact (h names).mp ⟨i, (hr.mono fun _ he => he.1).stands hw hs⟩
  · obtain ⟨i, hs⟩ := (h names).mpr hnames
    have hstay := Lasts.reach (w.lasts_stay _) hw (hr.mono fun _ he => he.2) (.refl w _)
    exact ⟨i, hs.stay (hs.clear hroot hd hf) (w.shelter_clear hw type) hstay hr.instanceId_eq⟩

/-- No specification comes, and nothing goes that no intent file is above. -/
def Regime.specifying (w₀ : Workspace) : Regime where
  admits e := e.Omits .specFile ∧ e.Spares (w₀.Clear .intentFile)
  holds := w₀.Stay (w₀.Clear .intentFile)
  lasts hw hr h := Lasts.reach (w₀.lasts_stay _) hw (hr.mono fun _ he => he.2) h

namespace Regime

variable {w₀ : Workspace}

theorem declares_specifying : (specifying w₀).Declares where
  manifest _ ht _ := ⟨by simp [Event.Omits, ht], trivial⟩
  redeclare _ _ _ := ⟨trivial, trivial⟩
  link _ := ⟨trivial, trivial⟩
  unlink _ _ := ⟨trivial, trivial⟩

theorem records_specifying : (specifying w₀).Records where
  keep _ _ _ _ _ := ⟨trivial, trivial⟩
  calls := ⟨trivial, trivial⟩
  record _ := ⟨trivial, trivial⟩
  dropRecord _ := ⟨trivial, trivial⟩

theorem places_specifying (root : Node) {kind : Graph.FileKind} (hd : kind.dir ≠ .specFile)
    (hf : kind.file ≠ .specFile) : (specifying w₀).Places root kind :=
  fun _ _ _ _ hn => ⟨hn.omits hd hf, trivial⟩

theorem derives_specifying (file : Node) {type : NodeType} (ht : type ≠ .specFile) :
    (specifying w₀).Derives file type where
  made _ hn _ _ := ⟨fun h => ht (hn.symm.trans h), trivial⟩
  changed _ _ _ _ := ⟨trivial, trivial⟩

theorem forgets_specifying (hw : w₀.Sound) : (specifying w₀).Forgets .intentFile := by
  intro w n hI hn ht
  refine ((Graph.runs_cascadeDelete_spares (w₀.shelter_clear hw _) hI
    (Graph.not_clear_of_handle hI hn ht)).mono fun e he => ⟨?_, Graph.spares_of_drops he⟩).weaken
      fun _ _ _ _ => trivial
  cases e <;> first | exact he.elim | trivial

theorem lowers_specifying (c : BuildContext) (hw : w₀.Sound) (file : Node) :
    (specifying w₀).Lowers c file where
  toDeclares := declares_specifying
  toDerives := derives_specifying file (by decide)
  places := places_specifying _ (by decide) (by decide)
  forgets := forgets_specifying hw
  entry _ _ _ := ⟨fun _ => ⟨trivial, trivial⟩, trivial, trivial⟩

end Regime

/-! ## The tech stack -/

variable {c : BuildContext} {Q : Path} {w w' : Workspace} {names : List String}

/-- A specification of the tech stack is given a node, and then its unit runs. -/
theorem TechStack.run_of_file (hQ : c.project.specs.pathEntry = .path Q) (ht : w.files.Proper)
    {r : StageReport} (h : (run c).run w = .ok r w') (hnames : names ∈ w.files.filesBelow Q Stage.markdown)
    (hlast : names.getLastD "" = Stage.techStackFile) : ∃ tool file w₀ report,
      (Graph.placeOf c.project.specs (Q.below names).text Graph.specKind).run w = .ok file w₀ ∧
      ((work c tool (Q.below names) file).run c.runner).run w₀ = .ok report w' := by
  obtain ⟨files, w₀, hfiles, h⟩ := bind_eq_ok.mp h
  obtain rfl := (Stage.reader_markdownFiles _).eq hfiles
  obtain ⟨Q', hQ', rfl⟩ := Stage.markdownFiles_eq_ok hfiles
  cases hQ.symm.trans hQ'
  have hmem : Q.below names ∈ (w₀.files.listFiles Q Stage.markdown).filter
      fun p => p.name == Stage.techStackFile :=
    List.mem_filter.mpr ⟨List.mem_map.mpr ⟨names, hnames, rfl⟩, by
      rw [Q.name_below (Stage.row_of_mem_filesBelow ht hnames).shown.nonempty, hlast, beq_self_eq_true]⟩
  split at h
  · rename_i hnil
    rw [hnil] at hmem
    cases hmem
  · rename_i path hpath
    rw [hpath, List.mem_singleton] at hmem
    subst hmem
    obtain ⟨file, w₁, hplace, h₁⟩ := bind_eq_ok.mp h
    obtain ⟨tool, w₂, htool, h₂⟩ := bind_eq_ok.mp h₁
    obtain rfl := (c.reader_toolConfig _).eq htool
    obtain ⟨reports, w₃, hall, h₃⟩ := bind_eq_ok.mp h₂
    cases h₃
    have hone : [work c tool (Q.below names) file].length ≤ 1 := Nat.le_refl 1
    rw [Work.runAll_eq (.inr hone), List.mapM_cons] at hall
    obtain ⟨report, w₄, hrun, hnone⟩ := bind_eq_ok.mp hall
    cases hnone
    exact ⟨tool, file, w₂, report, hplace, hrun⟩
  · cases h

/-- Without a specification of the tech stack nothing is done. -/
theorem TechStack.run_of_none (hQ : c.project.specs.pathEntry = .path Q) (ht : w.files.Proper)
    {r : StageReport} (h : (run c).run w = .ok r w')
    (hnone : ∀ names ∈ w.files.filesBelow Q Stage.markdown, names.getLastD "" ≠ Stage.techStackFile) :
    w' = w := by
  obtain ⟨files, w₀, hfiles, h⟩ := bind_eq_ok.mp h
  obtain rfl := (Stage.reader_markdownFiles _).eq hfiles
  obtain ⟨Q', hQ', rfl⟩ := Stage.markdownFiles_eq_ok hfiles
  cases hQ.symm.trans hQ'
  have hnil : ((w₀.files.listFiles Q Stage.markdown).filter fun p => p.name == Stage.techStackFile) = [] := by
    refine List.filter_eq_nil_iff.mpr fun path hpath => ?_
    obtain ⟨names, hnames, rfl⟩ := List.mem_map.mp hpath
    change ¬ ((Q.below names).name == Stage.techStackFile) = true
    rw [Q.name_below (Stage.row_of_mem_filesBelow ht hnames).shown.nonempty, beq_iff_eq]
    exact hnone names hnames
  rw [hnil] at h
  cases h
  rfl

/-- The stage gives the specification of the tech stack a node. -/
theorem TechStack.stands_of_run (hQ : c.project.specs.pathEntry = .path Q) (hne : Q.names ≠ [])
    (hw : w.Sound) (ht : w.files.Proper) {r : StageReport} (h : (run c).run w = .ok r w')
    (hnames : names ∈ w.files.filesBelow Q Stage.markdown)
    (hlast : names.getLastD "" = Stage.techStackFile) :
    ∃ i, Graph.Stands w' Graph.specKind c.project.specs.id names i := by
  have hrow := Stage.row_of_mem_filesBelow ht hnames
  obtain ⟨tool, file, w₀, report, hplace, hrun⟩ := run_of_file hQ ht h hnames hlast
  obtain ⟨hplaced, -, hstands⟩ := (Graph.runs_placeOf (hrow.hasParts hQ hne)).ok hw hplace
  have hw₀ := hplaced.sound hw
  have hresolves : (Regime.sparing w₀ fun _ => True).Resolves c file :=
    { toDeclares := Regime.declares_sparing
      toDerives := ⟨fun _ _ _ _ => trivial, fun _ _ _ _ => trivial⟩
      summary := fun _ _ => trivial }
  have hsafe : Safe (.sparing w₀ fun _ => True) ((work c tool (Q.below names) file).run c.runner) :=
    (fits_work hresolves ..).run ⟨⟨fun _ _ _ _ _ => trivial⟩, trivial, fun _ => trivial, fun _ => trivial⟩ _
  exact ⟨file.id, hstands.reach hw₀ ((hsafe.runs w₀ (.refl w₀ _)).ok hw₀ hrun).1⟩

/-! ## Lowering -/

namespace Lowering

/-- When the units are made, specifications stand at the rows of the files and at no other. -/
theorem rowsAre_works (hQ : c.project.specs.pathEntry = .path Q) (hne : Q.names ≠ []) (hw : w.Sound)
    (ht : w.Proper) (ha : w.Apt) (hbase : w.Base c.project.specs.id)
    (htech : ∀ names ∈ w.files.filesBelow Q Stage.markdown, names.getLastD "" = Stage.techStackFile →
      ∃ i, Graph.Stands w Graph.specKind c.project.specs.id names i)
    {us : List (Work LoweringResult)} (h : (works c).run w = .ok us w') :
    Graph.RowsAre w' Graph.specKind c.project.specs.id (w.files.filesBelow Q Stage.markdown) := by
  obtain ⟨w₁, tool, techStack, hprune, hmake⟩ := works_parts hQ ht.files h
  have hkinds : Graph.specKind.Places := ⟨.inl rfl, .inr (.inl rfl)⟩
  obtain ⟨hpruned, hbacked⟩ := Stage.backed_pruneMissing hw ha hkinds (by decide) hQ hprune
  have hw₁ := hpruned.sound hw
  have ht₁ : w₁.Proper := (hpruned.mono fun _ he => Build.proper_of_not_writes he.2).proper ht
  have hrows := hpruned.filesBelow_of_prunes Q
  have hrow (names : List String) (hnames : names ∈ specRows w.files Q) :
      Graph.HasParts c.project.specs (Q.below names).text (id names) :=
    (row_of_mem_specRows ht.files hnames).hasParts hQ hne
  obtain ⟨hmade, hunits, hcome⟩ := (Graph.rows_mapM_placeOf (w := w₁) (by decide) hrow
    fun names file => (Graph.reader_relativePath _ _).bind fun relative => (reader_readText _).bind
      fun text => .pure (unit c tool techStack (Q.below names) relative text file)).ok hw₁ hmake
  refine fun names => ⟨fun ⟨i, hs⟩ => ?_, fun hnames => ?_⟩
  · rcases hcome hs with hs | hmem
    · have hshown := ((hpruned.mono fun _ he => he.1).stands hw hs).shown ha
      exact hrows ▸ Stage.mem_filesBelow_of_isFile ht₁.files hshown (hbacked names i hs)
    · rw [List.map_id] at hmem
      exact (List.mem_filter.mp hmem).1
  · by_cases hlast : names.getLastD "" = Stage.techStackFile
    · obtain ⟨i, hs⟩ := htech names hnames hlast
      have hs₁ := Stage.stands_pruneMissing hw ha hkinds (by decide) hQ hbase.specs hs
        (Stage.row_of_mem_filesBelow ht.files hnames).isFile hprune
      exact ⟨i, hs₁.reach hw₁ (hmade.mono fun _ ⟨_, he⟩ => he.spares)⟩
    · have hmem : names ∈ specRows w.files Q := List.mem_filter.mpr ⟨hnames, by simpa using hlast⟩
      obtain ⟨_, -, file, -, hs, -⟩ := Reader.mem_of_forall₂ hunits.flip hmem
      exact ⟨file.id, hs⟩

/-- After lowering, specifications stand at the rows of the files and at no other. -/
theorem rowsAre_run (hQ : c.project.specs.pathEntry = .path Q) (hne : Q.names ≠ []) (hw : w.Sound)
    (ht : w.Proper) (ha : w.Apt) (hbase : w.Base c.project.specs.id)
    (htech : ∀ names ∈ w.files.filesBelow Q Stage.markdown, names.getLastD "" = Stage.techStackFile →
      ∃ i, Graph.Stands w Graph.specKind c.project.specs.id names i)
    {r : StageReport} (h : (run c).run w = .ok r w') :
    Graph.RowsAre w' Graph.specKind c.project.specs.id (w.files.filesBelow Q Stage.markdown) := by
  obtain ⟨us, w₁, hworks, h⟩ := bind_eq_ok.mp h
  obtain ⟨reports, w₂, hall, h⟩ := bind_eq_ok.mp h
  cases h
  obtain ⟨hw₁, hbase₁, -⟩ := works_eq_ok hQ hne hw ht.files hbase hworks
  have hsafe : Safe (.specifying w₁) (Work.runAll us c.runner) :=
    Work.safe_runAll Regime.records_specifying c.runner fun u hu => by
      obtain ⟨tool, techStack, path, relative, text, file, rfl⟩ := mem_works hworks u hu
      exact fits_unit (Regime.lowers_specifying c hw₁ file) ..
  exact (rowsAre_works hQ hne hw ht ha hbase htech hworks).reach hw₁ hbase₁.intent (by decide) (by decide)
    ((hsafe.runs w₁ (.refl w₁ _)).ok hw₁ hall).1

end Lowering

/-! ## The later stages -/

namespace Build

variable {s : Stage} {r : StageReport} {R : Path}

/-- Only the tech stack and lowering make nodes of specifications, and delete them. -/
theorem safe_runStage_specifying (hw : w.Sound) (hs : s ≠ .techStack ∧ s ≠ .lowering) :
    Safe (.specifying w) (runStage c s) := by
  cases s with
  | techStack => exact absurd rfl hs.1
  | lowering => exact absurd rfl hs.2
  | refresh =>
      exact (DepsFile.safe_sync (R := .specifying w) Regime.declares_specifying
        (fun _ _ _ _ => ⟨trivial, trivial⟩) fun _ _ => ⟨⟨trivial, trivial⟩, trivial, trivial⟩).bind
          fun _ => .pure _
  | indexing =>
      exact Indexing.safe_run (R := .specifying w) Regime.records_specifying Regime.declares_specifying
        (Regime.forgets_specifying hw) (Regime.places_specifying _ (by decide) (by decide)).shows
          fun file => Regime.derives_specifying file (by decide)
  | compilation =>
      exact Compilation.safe_run (R := .specifying w) Regime.records_specifying
        Regime.declares_specifying (Regime.places_specifying _ (by decide) (by decide)).shows
          fun file _ _ =>
            { toDeclares := Regime.declares_specifying
              toDerives := Regime.derives_specifying file (by decide)
              places := Regime.places_specifying _ (by decide) (by decide)
              source := fun _ _ => ⟨trivial, trivial⟩
              output := fun _ _ _ _ _ _ => ⟨trivial, trivial⟩
              input := fun _ _ _ _ _ => ⟨trivial, trivial⟩ }

/-- The specifications in the graph are those in the file tree. -/
def Specified (p : Project) (R : Path) (w : Workspace) : Prop :=
  Graph.RowsAre w Graph.specKind p.specs.id (w.files.filesBelow (R.child "specs") Stage.markdown)

/-- No stage changes the specifications in the file tree. -/
theorem filesBelow_specs_runStage (hc : c.project.Placed R) (hready : Ready c w)
    (h : (runStage c s).run w = .ok r w') : w'.files.filesBelow (R.child "specs") Stage.markdown =
      w.files.filesBelow (R.child "specs") Stage.markdown := by
  have harea : ¬ s.Area "specs" := by
    cases s <;> simp [Stage.Area]
  rw [Path.child_name R (by decide)]
  exact filesBelow_runStage hc hready.sound hready.proper.files h harea (by decide)

/-- The tech stack and lowering leave the specifications in the graph. -/
theorem specified_lowering (hc : c.project.Placed R) (hready : Ready c w) (ha : w.Apt) {w₁ : Workspace}
    {r₁ : StageReport} (htech : (runStage c .techStack).run w = .ok r w₁)
    (hlower : (runStage c .lowering).run w₁ = .ok r₁ w') : Specified c.project R w' := by
  have hne : (R.child "specs").names ≠ [] := R.child_ne_nil (by decide)
  have hready₁ := hready.stage htech
  have ha₁ := apt_runStage hready.sound hready.proper ha htech
  rw [Specified, filesBelow_specs_runStage hc hready₁ hlower]
  refine Lowering.rowsAre_run hc.specs hne hready₁.sound hready₁.proper ha₁ hready₁.specs
    (fun names hnames hlast => ?_) hlower
  rw [filesBelow_specs_runStage hc hready htech] at hnames
  exact TechStack.stands_of_run hc.specs hne hready.sound hready.proper.files htech hnames hlast

/-- The later stages keep them. -/
theorem Specified.stage (h : Specified c.project R w) (hc : c.project.Placed R) (hready : Ready c w)
    (hs : s ≠ .techStack ∧ s ≠ .lowering) (hrun : (runStage c s).run w = .ok r w') :
    Specified c.project R w' := by
  rw [Specified, filesBelow_specs_runStage hc hready hrun]
  exact Graph.RowsAre.reach h hready.sound hready.specs.intent (by decide) (by decide)
    (((safe_runStage_specifying hready.sound hs).runs w (.refl w _)).ok hready.sound hrun).1

end Build

end IntentBuild
