import IntentBuild.Build.Run
import IntentBuild.Proofs.Build.Units
import IntentBuild.Proofs.Project

/-!
# What the stages of a build change

Every stage asks its own of a regime.  To apply a result for the file of a node, the regime has to
admit what the stage makes of it: `Regime.Resolves`, `Regime.Lowers`, `Regime.Derives` and
`Regime.Compiles`.  Each of them is about one file, so a regime may guard what the results for other
files have left.  A stage makes the nodes of the files that it lists (`Regime.Shows`), and deletes
those of files that are gone (`Regime.Forgets`).

`Regime.Crafts` lists all that the stages of a build ask of a regime, but for the records of their
units, where nothing but the types of nodes counts.  A result writes below the intent directory only
where `Lowering.checkEntry` lets it, and below the source directory only at the source path of an
intent file.

The units of the stages fit such a regime.  Every stage but the refresh of the dependencies is safe
where records are admitted too (`Build.safe_runStage`), and a whole build is safe where all changes
are admitted.
-/

namespace IntentBuild

open Op

/-! ## What the stages ask of a regime -/

/-- A root shows a file: it stands at a path below the directory of the root, no part of which
begins with a point, and has the ending of specifications and intent files. -/
def Stage.Shows (w : Workspace) (root : Node) (path : Path) : Prop :=
  ∃ P, root.pathEntry = .path P ∧ path ∈ w.files.listFiles P Stage.markdown

/-- An intent file that is shown and has a target. -/
structure Indexing.Shown (c : BuildContext) (w : Workspace) (f : IntentFile) : Prop where
  /-- The file is shown. -/
  shown : Stage.Shows w c.project.intent f.path
  /-- The relative path is that below the intent directory. -/
  relative : ∃ parts, Graph.HasParts c.project.intent f.path.text parts ∧
    f.relative = Text.joinWith "/" parts
  /-- The target is that of the name. -/
  target : f.path.targetExtension? = some f.target

/-- The relative path has proper parts. -/
theorem Indexing.Shown.below {c : BuildContext} {w : Workspace} {f : IntentFile}
    (h : Shown c w f) : Graph.Below f.relative := by
  obtain ⟨parts, hparts, hrelative⟩ := h.relative
  exact hrelative ▸ hparts.spec.2

namespace Regime

/-- New nodes for the files that a root shows. -/
def Shows (R : Regime) (root : Node) (kind : Graph.FileKind) : Prop :=
  ∀ ⦃w path parts⦄, R.holds w → Stage.Shows w root path → Graph.HasParts root path.text parts →
    ∀ n, Graph.OnPlace kind parts n → R.admits (.node n)

/-- New nodes for the places of any files below a root. -/
def Places (R : Regime) (root : Node) (kind : Graph.FileKind) : Prop :=
  ∀ ⦃full parts⦄, Graph.HasParts root full parts → ∀ n, Graph.OnPlace kind parts n →
    R.admits (.node n)

/-- The nodes of the files that a root shows are nodes for places. -/
theorem Places.shows {R : Regime} {root : Node} {kind : Graph.FileKind} (hR : R.Places root kind) :
    R.Shows root kind :=
  fun _ _ _ _ _ hparts => hR hparts

theorem Places.safe_placeOf {R : Regime} {root : Node} {kind : Graph.FileKind}
    (hR : R.Places root kind) (full : String) : Safe R (Graph.placeOf root full kind) :=
  .of_runs fun _ _ => Graph.runs_placeOf_any fun hparts => hR hparts

/-- The node of a file of a type is deleted with all that is below it. -/
def Forgets (R : Regime) (type : NodeType) : Prop :=
  ∀ ⦃w n⦄, R.holds w → Handle n w → n.type = type →
    Runs R.admits w (Graph.cascadeDelete n true) fun _ _ => True

/-- Derived data of a type below the node of a file. -/
structure Derives (R : Regime) (file : Node) (type : NodeType) : Prop where
  /-- A new node. -/
  made : ∀ n, n.type = type → n.parent = some file.id → n.json = none → R.admits (.node n)
  /-- Other content. -/
  changed : ∀ old new, old.type = type → old.parent = some file.id → R.admits (.content old new)

theorem Derives.safe_node {R : Regime} {file : Node} {type : NodeType} (hR : R.Derives file type)
    (name : String) : Safe R (Graph.getOrCreate (some file) type name none) :=
  .of_runs fun _ _ => Graph.runs_getOrCreate fun n hk hj _ =>
    hR.made n (congrArg NodeKey.type hk) (congrArg NodeKey.parent hk) hj

/-- The tech stack is resolved from the file of a node. -/
structure Resolves (R : Regime) (c : BuildContext) (file : Node) : Prop
    extends R.Declares, R.Derives file .techStackData where
  /-- The file of the tech stack. -/
  summary : ∀ {P}, c.project.node.pathEntry = .path P →
    ∀ text, R.admits (.write ((P.child ".intentcode").child "tech-stack.json") text)

/-- The file of an entry is written or removed. -/
def Enters (R : Regime) (c : BuildContext) (e : IntentEntry) : Prop :=
  ∀ ⦃P⦄, c.project.intent.pathEntry = .path P →
    (∀ text, R.admits (.write (P.child e.relativePath) text)) ∧
      R.admits (.remove (P.child e.relativePath))

/-- The specification in the file of a node is lowered. -/
structure Lowers (R : Regime) (c : BuildContext) (file : Node) : Prop
    extends R.Declares, R.Derives file .loweringData where
  /-- The nodes of intent files. -/
  places : R.Places c.project.intent Graph.intentKind
  /-- An intent file is deleted. -/
  forgets : R.Forgets .intentFile
  /-- An intent file is written or removed. -/
  entry : ∀ {e}, Lowering.checkEntry e = .ok () → R.Enters c e

/-- The intent file of a node is compiled, where the relative path of the file is given. -/
structure Compiles (R : Regime) (c : BuildContext) (file : Node) (relative : String) : Prop
    extends R.Declares, R.Derives file .compilerData where
  /-- The nodes of source files. -/
  places : R.Places c.project.source Graph.sourceKind
  /-- The source file. -/
  source : ∀ {P}, c.project.source.pathEntry = .path P →
    ∀ text, R.admits (.write (P.child (Path.withoutIntentSuffix relative)) text)
  /-- The text of the node of the source file. -/
  output : ∀ {w P parts old new}, R.holds w → c.project.source.pathEntry = .path P →
    Graph.HasParts c.project.source (P.child (Path.withoutIntentSuffix relative)).text parts →
      Graph.Stands w Graph.sourceKind c.project.source.id parts old.id → new.key = old.key →
        new.members = old.members → R.admits (.content old new)
  /-- The text of the node of the file. -/
  input : ∀ old new, old.id = file.id → new.key = old.key → new.members = old.members →
    R.admits (.content old new)

/-- The regime admits what the stages of a build change. -/
structure Crafts (R : Regime) (c : BuildContext) : Prop extends R.Declares, R.Keeps where
  /-- A new node. -/
  node : ∀ n, n.type ≠ .deps → R.admits (.node n)
  /-- Other content. -/
  content : ∀ old new, old.type ≠ .deps → R.admits (.content old new)
  /-- A node is changed, but for its members. -/
  text : ∀ old new, new.key = old.key → new.members = old.members → R.admits (.content old new)
  /-- A specification or an intent file is deleted with all that is below it. -/
  forget : ∀ {w n}, R.holds w → Handle n w → n.type = .specFile ∨ n.type = .intentFile →
    Runs R.admits w (Graph.cascadeDelete n true) fun _ _ => True
  /-- The file of the tech stack. -/
  summary : ∀ {P}, c.project.node.pathEntry = .path P →
    ∀ text, R.admits (.write ((P.child ".intentcode").child "tech-stack.json") text)
  /-- An intent file. -/
  entry : ∀ {e}, Lowering.checkEntry e = .ok () → R.Enters c e
  /-- A source file. -/
  source : ∀ {P s}, c.project.source.pathEntry = .path P → Graph.Below s →
    ∀ text, R.admits (.write (P.child (Path.withoutIntentSuffix s)) text)

/-- The regime admits what the stages of a build change, with the records of their units. -/
structure Builds (R : Regime) (c : BuildContext) : Prop extends R.Crafts c, R.Records

/-- The regime admits what each stage of a build asks of it. -/
structure Carries (R : Regime) (c : BuildContext) : Prop extends R.Records, R.Declares where
  /-- The nodes of specifications that are gone. -/
  forgetsSpecs : R.Forgets .specFile
  /-- The nodes of intent files that are gone. -/
  forgetsIntent : R.Forgets .intentFile
  /-- The nodes of specifications. -/
  showsSpecs : R.Shows c.project.specs Graph.specKind
  /-- The nodes of intent files. -/
  showsIntent : R.Shows c.project.intent Graph.intentKind
  /-- The tech stack. -/
  resolves : ∀ file, R.Resolves c file
  /-- Lowering. -/
  lowers : ∀ file, R.Lowers c file
  /-- Indexing. -/
  derives : ∀ file, R.Derives file .indexedData
  /-- Compiling. -/
  compiles : ∀ {w f} file, R.holds w → Indexing.Shown c w f → R.Compiles c file f.relative

namespace Crafts

variable {R : Regime} {c : BuildContext}

theorem places (hR : R.Crafts c) (root : Node) {kind : Graph.FileKind} (hd : kind.dir ≠ .deps)
    (hf : kind.file ≠ .deps) : R.Places root kind := by
  intro _ _ _ n hn
  rcases hn.part with ⟨hn, -⟩ | ⟨hn, -⟩
  · exact hR.node n (hn ▸ hd)
  · exact hR.node n (hn ▸ hf)

theorem shows_specs (hR : R.Crafts c) : R.Shows c.project.specs Graph.specKind :=
  (hR.places _ (by decide) (by decide)).shows

theorem shows_intent (hR : R.Crafts c) : R.Shows c.project.intent Graph.intentKind :=
  (hR.places _ (by decide) (by decide)).shows

theorem derives (hR : R.Crafts c) (file : Node) {type : NodeType} (ht : type ≠ .deps) :
    R.Derives file type where
  made n hn _ _ := hR.node n (hn ▸ ht)
  changed old new ho _ := hR.content old new (ho ▸ ht)

theorem resolves (hR : R.Crafts c) (file : Node) : R.Resolves c file where
  toDeclares := hR.toDeclares
  toDerives := hR.derives file (by decide)
  summary := hR.summary

theorem forgets_specFile (hR : R.Crafts c) : R.Forgets .specFile :=
  fun _ _ hI hn ht => hR.forget hI hn (.inl ht)

theorem forgets_intentFile (hR : R.Crafts c) : R.Forgets .intentFile :=
  fun _ _ hI hn ht => hR.forget hI hn (.inr ht)

theorem lowers (hR : R.Crafts c) (file : Node) : R.Lowers c file where
  toDeclares := hR.toDeclares
  toDerives := hR.derives file (by decide)
  places := hR.places _ (by decide) (by decide)
  forgets := hR.forgets_intentFile
  entry := hR.entry

theorem compiles (hR : R.Crafts c) (file : Node) {relative : String}
    (hrelative : Graph.Below relative) : R.Compiles c file relative where
  toDeclares := hR.toDeclares
  toDerives := hR.derives file (by decide)
  places := hR.places _ (by decide) (by decide)
  source hP := hR.source hP hrelative
  output _ _ _ _ := hR.text _ _
  input old new _ := hR.text old new

end Crafts

/-- What the stages change but for the records of their units is no record and no call. -/
theorem crafts_of_admits {R : Regime} (hA : ∀ e : Event, ¬ e.Records → e ≠ .calls → R.admits e)
    (c : BuildContext) : R.Crafts c where
  manifest _ _ _ := hA _ id nofun
  redeclare _ _ _ := hA _ id nofun
  link _ := hA _ id nofun
  unlink _ _ := hA _ id nofun
  keep _ _ _ _ _ := hA _ id nofun
  text _ _ _ _ := hA _ id nofun
  node _ _ := hA _ id nofun
  content _ _ _ := hA _ id nofun
  forget {_ n} hI _ _ := (Graph.safe_cascadeDelete (fun _ => hA _ id nofun) (fun _ => hA _ id nofun)
    (fun _ => hA _ id nofun) n true).runs _ hI
  summary _ _ := hA _ id nofun
  entry _ _ _ := ⟨fun _ => hA _ id nofun, hA _ id nofun⟩
  source _ _ _ := hA _ id nofun

theorem Builds.carries {R : Regime} {c : BuildContext} (hR : R.Builds c) : R.Carries c where
  toRecords := hR.toRecords
  toDeclares := hR.toDeclares
  forgetsSpecs := hR.forgets_specFile
  forgetsIntent := hR.forgets_intentFile
  showsSpecs := hR.shows_specs
  showsIntent := hR.shows_intent
  resolves := hR.resolves
  lowers := hR.lowers
  derives file := hR.toCrafts.derives file (by decide)
  compiles file _ hf := hR.toCrafts.compiles file hf.below

end Regime

theorem Regime.builds_any (c : BuildContext) : Regime.any.Builds c where
  toCrafts := crafts_of_admits (fun _ _ _ => trivial) c
  calls := trivial
  record _ := trivial
  dropRecord _ := trivial

/-! ## What the stages share -/

variable {R : Regime} {c : BuildContext}

theorem BuildContext.reader_toolConfig (c : BuildContext) (t : Tool) : Reader (c.toolConfig t) :=
  .lift _ _

namespace Stage

theorem reader_markdownFiles (root : Node) : Reader (markdownFiles root) :=
  reader_files.bind fun _ => (Graph.reader_pathOf _).bind fun _ => .pure _

/-- A root lists the files that it shows. -/
theorem markdownFiles_eq_ok {root : Node} {l : List Path} {w w' : Workspace}
    (h : (markdownFiles root).run w = .ok l w') :
    ∃ P, root.pathEntry = .path P ∧ l = w.files.listFiles P markdown := by
  have hfiles : files.run w = .ok w.files w := rfl
  rw [markdownFiles, bind_ok hfiles] at h
  obtain ⟨P, w₁, hP, h⟩ := bind_eq_ok.mp h
  cases h
  exact ⟨P, Graph.pathOf_eq_ok hP, rfl⟩

theorem shows_of_mem {root : Node} {l : List Path} {path : Path} {w w' : Workspace}
    (h : (markdownFiles root).run w = .ok l w') (hpath : path ∈ l) : Shows w root path := by
  obtain ⟨P, hP, rfl⟩ := markdownFiles_eq_ok h
  exact ⟨P, hP, hpath⟩

/-- The node of a file that was shown is made. -/
theorem runs_placeOf {root : Node} {kind : Graph.FileKind} (hR : R.Shows root kind)
    {w₀ w : Workspace} {path : Path} (hI : R.holds w₀) (hpath : Shows w₀ root path) :
    Runs R.admits w (Graph.placeOf root path.text kind) fun _ _ => True := by
  refine .reader (Graph.reader_relativeParts _ _) fun parts hparts => ?_
  have hparts := Graph.relativeParts_eq_ok hparts
  exact ((Graph.runs_makePlace hparts.ne_nil root).mono fun e he => by
    cases e with
    | node n => exact hR hI hpath hparts n he
    | _ => exact he.elim).weaken fun _ _ _ _ => trivial

theorem runs_forget (hD : R.Declares) {type : NodeType} (hR : R.Forgets type) {w : Workspace}
    {n : Node} (hI : R.holds w) (hn : Handle n w) (ht : n.type = type) :
    Runs R.admits w (forget c n) fun _ _ => True := by
  intro hw
  refine ((hR hI hn ht).bind fun _ _ _ hr _ => ?_) hw
  exact (((Manifest.safe_reconcile hD _).bind fun _ => .pure _).runs_after hw hI hr)

/-- Only nodes of files are deleted, and they were read as such. -/
theorem safe_pruneMissing (hD : R.Declares) {kind : Graph.FileKind} (hR : R.Forgets kind.file)
    (root : Node) : Safe R (pruneMissing c root kind) := by
  refine .reads (Graph.reader_fileNodes _ _) fun w l hI hl hw => ?_
  refine ((Runs.forIn fun e he w' hw' hr => ?_).bind fun _ _ _ _ _ => .pure trivial) hw
  obtain ⟨hnode, htype⟩ := Graph.mem_fileNodes hw hl he
  refine .reader (reader_isFile _) fun _ _ => .ite (fun _ => ?_) fun _ => .pure rfl
  exact (runs_forget hD hR (R.lasts hw hr hI) ((Handle.of_node? hw hnode).reach hr) htype).bind
    fun _ _ _ _ _ => .pure rfl

/-- Units that are made one by one. -/
theorem runs_works {A : Event → Prop} {β ρ : Type} {P : Work ρ → Prop} {work : β → Op (Work ρ)}
    {l : List β} {w : Workspace}
    (h : ∀ b ∈ l, ∀ w', Reach A w w' → Runs A w' (work b) fun u _ => P u) :
    Runs A w (l.mapM work) fun us _ => ∀ u ∈ us, P u :=
  (Runs.mapM (Q := fun _ u _ => P u) (fun b hb w' _ hr => h b hb w' hr)
    fun _ _ _ _ _ _ h => h).weaken fun _ _ _ h u hu => (h u hu).elim fun _ h => h.2

end Stage

/-- A stage makes the changes of a regime when making its units does, and all units fit. -/
theorem Work.runs_ofUnits {ρ : Type} {s : Stage} {works : Op (List (Work ρ))} (hK : R.Records)
    (r : Runner) {w : Workspace} (hI : R.holds w)
    (h : Runs R.admits w works fun us _ => ∀ u ∈ us, u.Fits R) :
    Runs R.admits w (do return .ofUnits s (← runAll (← works) r) : Op StageReport)
      fun _ _ => True := by
  intro hw
  refine (h.bind fun us w' _ hr hus => ?_) hw
  exact ((safe_runAll hK r hus).bind fun _ => .pure _).runs_after hw hI hr

/-- A stage is safe when making its units is, and all units fit. -/
theorem Work.safe_ofUnits {ρ : Type} {s : Stage} {works : Op (List (Work ρ))} (hK : R.Records)
    (r : Runner)
    (h : ∀ w, R.holds w → Runs R.admits w works fun us _ => ∀ u ∈ us, u.Fits R) :
    Safe R (do return .ofUnits s (← runAll (← works) r) : Op StageReport) :=
  ⟨fun w hI => runs_ofUnits hK r hI (h w hI)⟩

/-! ## The tech stack -/

namespace TechStack

theorem reader_summaryPath (project : Node) : Reader (summaryPath project) :=
  (DepsFile.reader_directory _).bind fun _ => .pure _

theorem summaryPath_eq_ok {project : Node} {p : Path} {w w' : Workspace}
    (h : (summaryPath project).run w = .ok p w') :
    ∃ P, project.pathEntry = .path P ∧ p = (P.child ".intentcode").child "tech-stack.json" := by
  obtain ⟨d, w₁, hd, h₁⟩ := bind_eq_ok.mp h
  obtain ⟨P, hP, rfl⟩ := DepsFile.directory_eq_ok hd
  cases h₁
  exact ⟨P, hP, rfl⟩

theorem safe_apply {file : Node} (hR : R.Resolves c file) (r : TechStackResult) :
    Safe R (apply c file r) := by
  refine .reads (reader_summaryPath _) fun w p hI hp => ?_
  obtain ⟨P, hP, rfl⟩ := summaryPath_eq_ok hp
  refine Safe.runs ?_ w hI
  refine (safe_writeIfChanged (hR.summary hP _)).bind fun _ => ?_
  refine (Graph.safe_upsertDerived hR.made hR.changed).bind fun _ => ?_
  refine (Manifest.safe_replaceDeclared hR.toDeclares ..).bind fun _ => .bind ?_ fun _ => .pure _
  exact .forIn fun _ _ => .once (safe_notify _)

theorem fits_work {file : Node} (hR : R.Resolves c file) (tool : ToolConfig) (path : Path) :
    (work c tool path file).Fits R where
  prompt := .of_reader ((reader_readText _).bind fun _ => .pure _)
  node := hR.toDerives.safe_node _
  steps _ _ hx := List.mem_singleton.mp hx ▸ safe_apply hR _

theorem safe_run (hK : R.Records) (hS : R.Shows c.project.specs Graph.specKind)
    (hR : ∀ file, R.Resolves c file) : Safe R (run c) := by
  refine .reads (Stage.reader_markdownFiles _) fun w files hI hfiles => ?_
  split
  · exact .pure trivial
  · rename_i path hpath
    have hmem : path ∈ files.filter fun p => p.name == Stage.techStackFile := by
      rw [hpath]
      exact .head _
    have hmem := (List.mem_filter.mp hmem).1
    refine fun hw => ((Stage.runs_placeOf hS hI (Stage.shows_of_mem hfiles hmem)).bind
      fun file w' _ hr _ => ?_) hw
    refine Safe.runs_after ?_ hw hI hr
    refine .reader (c.reader_toolConfig _) fun tool => (Work.safe_runAll hK _ fun u hu => ?_).bind
      fun _ => .pure _
    rw [List.mem_singleton.mp hu]
    exact fits_work (hR file) ..
  · exact .throw _

theorem reader_current (c : BuildContext) : Reader (current c) :=
  (reader_summaryPath _).bind fun _ => (reader_isFile _).bind fun _ =>
    .ite ((reader_readObject _).bind fun _ => .pure _) (.pure _)

end TechStack

/-! ## Lowering -/

namespace Lowering

/-- The unit of work for the specification of a node. -/
def unit (c : BuildContext) (tool : ToolConfig) (techStack : Option Members) (path : Path)
    (relative text : String) (file : Node) : Work LoweringResult :=
  { label := "specs " ++ relative
    tool
    role := Prompt.loweringRole
    prompt := pure (Prompt.lowering relative text (projects c) techStack c.extensions)
    node := Graph.getOrCreate (some file) .loweringData dataName none
    schema := LoweringResult.schema
    check := fun _ r => check r
    steps := steps c file
    source := some path }

/-- The node of a file is forgotten, if there is one. -/
theorem safe_forgetPlace (hD : R.Declares) (hR : R.Forgets .intentFile) (full : String) :
    Safe R (do
      match ← Graph.findPlaceOf c.project.intent full Graph.intentKind with
      | some n => Stage.forget c n
      | none => return ()) := by
  refine .reads (Graph.reader_findPlaceOf ..) fun w o hI ho hw => ?_
  cases o with
  | none => exact Runs.pure trivial hw
  | some n =>
      obtain ⟨hnode, htype⟩ := Graph.findPlaceOf_eq_ok hw ho
      exact Stage.runs_forget hD hR hI (.of_node? hw hnode) htype hw

theorem safe_applyEntry (hD : R.Declares) (hP : R.Places c.project.intent Graph.intentKind)
    (hF : R.Forgets .intentFile) {e : IntentEntry} (hE : R.Enters c e) :
    Safe R (applyEntry c e) := by
  refine .reads (Graph.reader_pathOf _) fun w dir hI hdir => ?_
  obtain ⟨hwrite, hremove⟩ := hE (Graph.pathOf_eq_ok hdir)
  have rest := safe_forgetPlace (c := c) hD hF (dir.child e.relativePath).text
  refine Safe.runs ?_ w hI
  cases hchange : e.change with
  | delete =>
      refine .reads (reader_isFile _) fun w b hI hb => .ite (fun hfile => ?_) fun _ => rest.runs w hI
      rw [isFile_run] at hb
      cases hb
      exact fun hw => (Runs.reads rfl <| (runs_removeFile hremove hfile).bind
        fun _ _ _ hr _ => rest.runs_after hw hI hr) hw
  | set =>
      cases hcontent : e.content with
      | none => exact .throw _
      | some text =>
          refine (safe_writeIfChanged (hwrite _)).bind fun _ =>
            (hP.safe_placeOf _).bind fun _ => .pure _

/-- Every entry of a result that passes the check passes it too. -/
theorem checkEntry_of_mem {es : List IntentEntry} (h : es.forM checkEntry = .ok ()) :
    ∀ e ∈ es, checkEntry e = .ok () := by
  induction es with
  | nil => exact nofun
  | cons e es ih =>
      change (checkEntry e >>= fun _ => es.forM checkEntry) = .ok () at h
      cases he : checkEntry e with
      | error x => rw [he] at h; cases h
      | ok u =>
          rw [he] at h
          intro e' he'
          rcases List.mem_cons.mp he' with rfl | he'
          · exact he
          · exact ih h e' he'

theorem safe_keep {file : Node} (hR : R.Derives file .loweringData) (r : LoweringResult) :
    Safe R (keep file r) :=
  (Graph.safe_upsertDerived hR.made hR.changed).bind fun _ => .pure _

theorem safe_steps {file : Node} (hR : R.Lowers c file) {r : LoweringResult}
    (hr : check r = .ok ()) : ∀ x ∈ steps c file r, Safe R x := by
  intro x hx
  rcases List.mem_append.mp hx with hx | hx
  · obtain ⟨e, he, rfl⟩ := List.mem_map.mp hx
    exact safe_applyEntry hR.toDeclares hR.places hR.forgets (hR.entry (checkEntry_of_mem hr e he))
  · rw [List.mem_singleton.mp hx]
    exact safe_keep hR.toDerives r

theorem fits_unit {file : Node} (hR : R.Lowers c file) (tool : ToolConfig)
    (techStack : Option Members) (path : Path) (relative text : String) :
    (unit c tool techStack path relative text file).Fits R where
  prompt := .pure _
  node := hR.toDerives.safe_node _
  steps := safe_steps hR

theorem work_eq (c : BuildContext) (tool : ToolConfig) (techStack : Option Members) (path : Path) :
    work c tool techStack path = (do
      let file ← Graph.placeOf c.project.specs path.text Graph.specKind
      let relative ← Graph.relativePath c.project.specs path.text
      let text ← Op.readText path
      return unit c tool techStack path relative text file) := rfl

/-- The units of the stage are made for nodes of specifications. -/
theorem mem_works {us : List (Work LoweringResult)} {w w' : Workspace}
    (h : (works c).run w = .ok us w') : ∀ u ∈ us, ∃ tool techStack path relative text file,
      u = unit c tool techStack path relative text file := by
  intro u hu
  obtain ⟨_, _, -, h⟩ := bind_eq_ok.mp h
  obtain ⟨_, _, -, h⟩ := bind_eq_ok.mp h
  obtain ⟨_, _, -, h⟩ := bind_eq_ok.mp h
  obtain ⟨_, _, -, h⟩ := bind_eq_ok.mp h
  obtain ⟨_, -, _, _, h⟩ := mem_of_mapM h u hu
  obtain ⟨_, _, -, h⟩ := bind_eq_ok.mp h
  obtain ⟨_, _, -, h⟩ := bind_eq_ok.mp h
  obtain ⟨_, _, -, h⟩ := bind_eq_ok.mp h
  cases h
  exact ⟨_, _, _, _, _, _, rfl⟩

theorem safe_works (hD : R.Declares) (hF : R.Forgets .specFile)
    (hS : R.Shows c.project.specs Graph.specKind) : Safe R (works c) := by
  refine .reads (Stage.reader_markdownFiles _) fun w files hI hfiles hw => ?_
  refine (((Stage.safe_pruneMissing hD hF _).runs w hI).bind fun _ w' _ hr _ => ?_) hw
  refine .reader (TechStack.reader_current c) fun _ _ => .reader (c.reader_toolConfig _)
    fun _ _ => ?_
  refine (Runs.mapM (Q := fun _ _ _ => True) (fun path hpath _ _ _ => ?_)
    fun _ _ _ _ _ _ _ => trivial).weaken fun _ _ _ _ => trivial
  have hmem : path ∈ files := (List.mem_filter.mp hpath).1
  exact (Stage.runs_placeOf hS hI (Stage.shows_of_mem hfiles hmem)).bind fun _ _ _ _ _ =>
    .of_reader ((Graph.reader_relativePath _ _).bind fun _ => (reader_readText _).bind
      fun _ => .pure _) fun _ _ => trivial

theorem runs_works (hD : R.Declares) (hF : R.Forgets .specFile)
    (hS : R.Shows c.project.specs Graph.specKind) (hR : ∀ file, R.Lowers c file) {w : Workspace}
    (hI : R.holds w) : Runs R.admits w (works c) fun us _ => ∀ u ∈ us, u.Fits R := by
  refine ((safe_works hD hF hS).runs w hI).and_run.weaken fun us w' _ h u hu => ?_
  obtain ⟨tool, techStack, path, relative, text, file, rfl⟩ := mem_works h.1 u hu
  exact fits_unit (hR file) ..

theorem safe_run (hK : R.Records) (hD : R.Declares) (hF : R.Forgets .specFile)
    (hS : R.Shows c.project.specs Graph.specKind) (hR : ∀ file, R.Lowers c file) :
    Safe R (run c) :=
  Work.safe_ofUnits hK _ fun _ => runs_works hD hF hS hR

end Lowering

/-! ## Indexing -/

namespace Indexing

/-- The unit of work for the intent file of a node. -/
def unit (c : BuildContext) (tool : ToolConfig) (f : IntentFile) (text : String) (file : Node) :
    Work IndexResult :=
  { label := "index " ++ f.relative
    tool
    role := Prompt.indexerRole
    prompt := pure (Prompt.index f.relative f.target text (c.skillText f.target))
    node := Graph.getOrCreate (some file) .indexedData dataName none
    schema := IndexResult.schema
    check := fun _ _ => .ok ()
    steps := fun r => [apply file r]
    source := some f.path }

/-- Listing the intent files changes nothing but notices. -/
theorem runs_intentFile? {A : Event → Prop} {w w₀ : Workspace} {path : Path}
    (hpath : Stage.Shows w₀ c.project.intent path) :
    Runs A w (intentFile? c path) fun o _ => ∀ f, o = some f → Shown c w₀ f := by
  refine .reader (Graph.reader_relativePath _ _) fun relative hrelative => ?_
  split
  · rename_i target htarget
    refine .pure fun f hf => ?_
    cases hf
    exact ⟨hpath, Graph.relativePath_eq_ok hrelative, htarget⟩
  · exact (runs_notify _).bind fun _ _ _ _ _ => .pure nofun

/-- The intent files that are listed are shown. -/
theorem runs_intentFiles {A : Event → Prop} {w : Workspace} :
    Runs A w (intentFiles c) fun fs _ => ∀ f ∈ fs, Shown c w f := by
  refine .reader (Stage.reader_markdownFiles _) fun paths hpaths => ?_
  refine (Runs.mapM (Q := fun _ (o : Option IntentFile) _ => ∀ f, o = some f → Shown c w f)
    (fun path hpath _ _ _ => runs_intentFile? (Stage.shows_of_mem hpaths hpath))
    fun _ _ _ _ _ _ h => h).bind fun os _ _ _ hos => .pure fun f hf => ?_
  obtain ⟨o, ho, rfl⟩ := List.mem_filterMap.mp hf
  obtain ⟨_, -, h⟩ := hos _ ho
  exact h f rfl

theorem safe_apply {file : Node} (hR : R.Derives file .indexedData) (r : IndexResult) :
    Safe R (apply file r) :=
  (Graph.safe_upsertDerived hR.made hR.changed).bind fun _ => .pure _

theorem fits_unit {file : Node} (hR : R.Derives file .indexedData) (c : BuildContext)
    (tool : ToolConfig) (f : IntentFile) (text : String) : (unit c tool f text file).Fits R where
  prompt := .pure _
  node := hR.safe_node _
  steps _ _ hx := List.mem_singleton.mp hx ▸ safe_apply hR _

theorem work_eq (c : BuildContext) (tool : ToolConfig) (f : IntentFile) :
    work c tool f = (do
      let file ← fileNode c f
      let text ← Op.readText f.path
      return unit c tool f text file) := rfl

/-- The units of the stage are made for nodes of intent files. -/
theorem mem_works {us : List (Work IndexResult)} {w w' : Workspace}
    (h : (works c).run w = .ok us w') : ∀ u ∈ us, ∃ tool f text file, u = unit c tool f text file := by
  intro u hu
  obtain ⟨_, _, -, h⟩ := bind_eq_ok.mp h
  obtain ⟨_, _, -, h⟩ := bind_eq_ok.mp h
  obtain ⟨_, _, -, h⟩ := bind_eq_ok.mp h
  obtain ⟨_, -, _, _, h⟩ := mem_of_mapM h u hu
  obtain ⟨_, _, -, h⟩ := bind_eq_ok.mp h
  obtain ⟨_, _, -, h⟩ := bind_eq_ok.mp h
  cases h
  exact ⟨_, _, _, _, rfl⟩

theorem safe_works (hD : R.Declares) (hF : R.Forgets .intentFile)
    (hS : R.Shows c.project.intent Graph.intentKind) : Safe R (works c) := by
  refine (Stage.safe_pruneMissing hD hF _).bind fun _ =>
    .reader (c.reader_toolConfig _) fun _ => ⟨fun w hI => ?_⟩
  refine runs_intentFiles.bind fun fs _ _ _ hfs => ?_
  refine (Runs.mapM (Q := fun _ _ _ => True) (fun f hf _ _ _ => ?_)
    fun _ _ _ _ _ _ _ => trivial).weaken fun _ _ _ _ => trivial
  exact (Stage.runs_placeOf hS hI (hfs f hf).shown).bind fun _ _ _ _ _ =>
    .of_reader ((reader_readText _).bind fun _ => .pure _) fun _ _ => trivial

theorem runs_works (hD : R.Declares) (hF : R.Forgets .intentFile)
    (hS : R.Shows c.project.intent Graph.intentKind) (hR : ∀ file, R.Derives file .indexedData)
    {w : Workspace} (hI : R.holds w) :
    Runs R.admits w (works c) fun us _ => ∀ u ∈ us, u.Fits R := by
  refine ((safe_works hD hF hS).runs w hI).and_run.weaken fun us w' _ h u hu => ?_
  obtain ⟨tool, f, text, file, rfl⟩ := mem_works h.1 u hu
  exact fits_unit (hR file) ..

theorem safe_run (hK : R.Records) (hD : R.Declares) (hF : R.Forgets .intentFile)
    (hS : R.Shows c.project.intent Graph.intentKind)
    (hR : ∀ file, R.Derives file .indexedData) : Safe R (run c) :=
  Work.safe_ofUnits hK _ fun _ => runs_works hD hF hS hR

end Indexing

/-! ## Compilation -/

namespace Compilation

/-- The unit of work for the intent file of a node. -/
def unit (c : BuildContext) (s : Shared) (f : Indexing.IntentFile) (text : String) (file : Node) :
    Work CompileResult :=
  { label := "compile " ++ f.relative
    tool := s.tool
    role := Prompt.compilerRole
    prompt := pure (Prompt.compile f.relative f.target text s.indexed s.deps
      (c.skillText f.target) c.extensions)
    node := Graph.getOrCreate (some file) .compilerData dataName none
    schema := CompileResult.schema
    check := fun _ r => check r
    steps := steps c file f.relative text
    source := some f.path }

theorem safe_applySource {file : Node} {relative : String} (hR : R.Compiles c file relative)
    (source : String) : Safe R (applySource c file relative source) := by
  refine .reads (Graph.reader_pathOf _) fun w P hI hP => ?_
  have hP := Graph.pathOf_eq_ok hP
  refine Safe.runs ?_ w hI
  refine (safe_writeIfChanged (hR.source hP _)).bind fun _ => .bind_runs
    (fun _ _ => Graph.runs_placeOf_any fun hparts => hR.places hparts) fun _ n w' hw' hI' hn => ?_
  obtain ⟨parts, hparts, -, hstands⟩ := hn
  refine ((Graph.runs_setContent fun old new ho hr => ?_).bind fun _ _ _ hr _ => ?_)
  · rw [← hw'.wellFormed.nodes.owned ho] at hstands
    exact hR.output hI' hP hparts hstands hr.key hr.members_eq
  · exact ((Graph.safe_link hR.link).bind fun _ => .pure _).runs_after hw' hI' hr

theorem safe_declare (hD : R.Declares) (file : Node) (r : CompileResult) : Safe R (declare c file r) :=
  (Manifest.safe_applyDeltas hD ..).bind fun _ => .pure _

theorem safe_keep {file : Node} (hC : R.Derives file .compilerData)
    (hI : ∀ old new, old.id = file.id → new.key = old.key → new.members = old.members →
      R.admits (.content old new)) (text : String) (r : CompileResult) : Safe R (keep file text r) := by
  have content : Safe R (Graph.setContent file (.put (some (intentContent r text))) .keep .keep) :=
    .of_runs fun w _ hw => Graph.runs_setContent (fun old new ho hr =>
      hI old new (hw.wellFormed.nodes.owned ho) hr.key hr.members_eq) hw
  exact content.bind fun _ => (Graph.safe_upsertDerived hC.made hC.changed).bind fun _ => .pure _

/-- The steps to apply a result. -/
theorem mem_steps {file : Node} {relative text : String} {r : CompileResult} {x : Op Unit}
    (hx : x ∈ steps c file relative text r) : (∃ s, x = applySource c file relative s) ∨
      x = declare c file r ∨ x = keep file text r := by
  rcases List.mem_append.mp hx with hx | hx
  · obtain ⟨s, -, rfl⟩ := Option.map_eq_some_iff.mp (Option.mem_toList.mp hx)
    exact .inl ⟨s, rfl⟩
  · rcases List.mem_cons.mp hx with rfl | hx
    · exact .inr (.inl rfl)
    · exact .inr (.inr (List.mem_singleton.mp hx))

theorem safe_steps {file : Node} {relative : String} (hR : R.Compiles c file relative)
    (text : String) (r : CompileResult) : ∀ x ∈ steps c file relative text r, Safe R x := by
  intro x hx
  obtain ⟨s, rfl⟩ | rfl | rfl := mem_steps hx
  · exact safe_applySource hR s
  · exact safe_declare hR.toDeclares file r
  · exact safe_keep hR.toDerives hR.input text r

theorem reader_indexedTree? (f : Indexing.IntentFile × Node) : Reader (indexedTree? f) :=
  (Graph.reader_child? _ _ _).bind fun
    | some n => by
        dsimp only
        split
        · exact .pure _
        · exact .pure _
    | none => .pure _

theorem fits_unit {file : Node} {f : Indexing.IntentFile} (hR : R.Compiles c file f.relative)
    (s : Shared) (text : String) : (unit c s f text file).Fits R where
  prompt := .pure _
  node := hR.toDerives.safe_node _
  steps _ := safe_steps hR _ _

/-- The units of the stage are made for nodes of intent files that are shown, and list the synced
map, as it was before they run. -/
theorem runs_works (hD : R.Declares) (hS : R.Shows c.project.intent Graph.intentKind)
    {w : Workspace} (hI : R.holds w) : Runs R.admits w (works c) fun us _ => ∃ s w₁ w₂,
      Reach R.admits w w₁ ∧ (DepsFile.synced c.project.node).run w₁ = .ok s.deps w₂ ∧
        ∀ u ∈ us, ∃ f text file, Indexing.Shown c w f ∧ u = unit c s f text file := by
  intro hw
  refine (Indexing.runs_intentFiles.bind fun fs w₁ _ h₁ hfs => ?_) hw
  have hnodes : Runs R.admits w₁ (fs.mapM fun f => return (f, ← Indexing.fileNode c f))
      fun files _ => ∀ e ∈ files, Indexing.Shown c w e.1 := by
    refine (Runs.mapM
      (Q := fun f (e : Indexing.IntentFile × Node) _ => e.1 = f) (fun f hf w₂ _ h₂ => ?_)
      fun _ _ _ _ _ _ h => h).weaken fun files _ _ h e he => ?_
    · exact (Stage.runs_placeOf hS hI (hfs f hf).shown).bind fun _ _ _ _ _ => .pure rfl
    · obtain ⟨f, hf, rfl⟩ := h e he
      exact hfs _ hf
  refine hnodes.bind fun files w₂ hw₂ h₂ hfiles => ?_
  refine .reader (.mapM reader_indexedTree? _) fun indexed _ => ?_
  have hI₂ := R.lasts hw (h₁.trans h₂) hI
  refine (((DepsFile.safe_synced hD _).runs w₂ hI₂).and_run).bind fun deps w₃ _ h₃ hS => ?_
  refine .reader (c.reader_toolConfig _) fun tool _ => ?_
  refine (Stage.runs_works (P := fun u => ∃ f text file, Indexing.Shown c w f ∧
    u = unit c { tool, indexed := Text.sortByKey (indexed.filterMap id), deps } f text file)
    fun f hf w₄ h₄ => ?_).weaken fun us _ _ hus => ⟨_, w₂, w₃, h₁.trans h₂, hS.1, hus⟩
  exact .reader (reader_readText _) fun text _ => .pure ⟨f.1, text, f.2, hfiles f hf, rfl⟩

theorem mem_works {us : List (Work CompileResult)} {w w' : Workspace} (hw : w.Sound)
    (h : (works c).run w = .ok us w') : ∀ u ∈ us, ∃ f text file s,
      Graph.Below f.relative ∧ u = unit c s f text file := by
  have hR := Regime.builds_any c
  obtain ⟨-, s, -, -, -, -, hus⟩ := (runs_works hR.toDeclares hR.shows_intent trivial).ok hw h
  intro u hu
  obtain ⟨f, text, file, hf, rfl⟩ := hus u hu
  exact ⟨f, text, file, s, hf.below, rfl⟩

theorem fits_works (hD : R.Declares) (hS : R.Shows c.project.intent Graph.intentKind)
    (hR : ∀ {w f} file, R.holds w → Indexing.Shown c w f → R.Compiles c file f.relative)
    {w : Workspace} (hI : R.holds w) :
    Runs R.admits w (works c) fun us _ => ∀ u ∈ us, u.Fits R := by
  refine (runs_works hD hS hI).weaken fun us _ _ h u hu => ?_
  obtain ⟨s, -, -, -, -, h⟩ := h
  obtain ⟨f, text, file, hf, rfl⟩ := h u hu
  exact fits_unit (hR file hI hf) ..

theorem safe_run (hK : R.Records) (hD : R.Declares)
    (hS : R.Shows c.project.intent Graph.intentKind)
    (hR : ∀ {w f} file, R.holds w → Indexing.Shown c w f → R.Compiles c file f.relative) :
    Safe R (run c) :=
  Work.safe_ofUnits hK _ fun _ => fits_works hD hS hR

/-- The prompt of the unit is that of a compilation where these dependencies are listed. -/
def Lists (c : BuildContext) (deps : Dependencies) (u : Work CompileResult) : Prop :=
  ∃ relative target text indexed, u.prompt = pure (Prompt.compile relative target text indexed
    deps (c.skillText target) c.extensions)

end Compilation

/-! ## Builds -/

namespace Build

/-- Every stage but the refresh is safe. -/
theorem safe_runStage (hR : R.Carries c) {s : Stage} (hs : s ≠ .refresh) : Safe R (runStage c s) := by
  cases s with
  | techStack => exact TechStack.safe_run hR.toRecords hR.showsSpecs hR.resolves
  | lowering =>
      exact Lowering.safe_run hR.toRecords hR.toDeclares hR.forgetsSpecs hR.showsSpecs hR.lowers
  | refresh => exact absurd rfl hs
  | indexing =>
      exact Indexing.safe_run hR.toRecords hR.toDeclares hR.forgetsIntent hR.showsIntent hR.derives
  | compilation =>
      exact Compilation.safe_run hR.toRecords hR.toDeclares hR.showsIntent hR.compiles

theorem safe_prepare (hR : R.Declares) (s : Services) (project : Project) :
    Safe R (prepare s project) :=
  (DepsFile.safe_verify hR _).bind fun _ => .reader (Registry.reader_installed _) fun _ =>
    .lift _ fun _ => .pure _

theorem safe_start (hR : R.Declares) (s : Services) (name : String) : Safe R (start s name) :=
  .reader (Project.reader_require _) fun project =>
    .ite ((Safe.throw _).bind fun _ => safe_prepare hR s project) (safe_prepare hR s project)

theorem safe_outcomeOf {α : Type} {x : Op α} (hx : Safe R x) : Safe R (outcomeOf x) :=
  .tryCatch (.map hx) fun _ => .pure _

/-- Every stage is safe where a refresh is. -/
theorem safe_stage (hR : R.Carries c) (hS : Safe R (DepsFile.sync c.project.node)) (s : Stage) :
    Safe R (runStage c s) := by
  by_cases hs : s = .refresh
  · subst hs
    exact hS.bind fun _ => .pure _
  · exact safe_runStage hR hs

section
variable (hc : ∀ s, Safe R (runStage c s))
include hc

theorem safe_advance (limit : Int) (p : Plan) : Safe R (advance limit c p) := by
  refine (safe_outcomeOf (.of_reader (Work.reader_failIfCancelled _))).bind fun r => ?_
  split
  · exact .pure _
  · split
    · exact .pure _
    · refine (safe_outcomeOf (hc _)).bind fun r => ?_
      split
      · exact .pure _
      · exact .pure _

/-- The stages of a plan are safe where every stage is. -/
theorem safe_advanceAll (settings : Settings) (left : Nat) :
    ∀ p, Safe R (advanceAll settings c left p) := by
  induction left with
  | zero => exact fun _ => .throw _
  | succ left ih =>
      refine fun p => (safe_advance hc ..).bind fun r => ?_
      split
      · exact .throw _
      · exact ih _
      · exact .ite (.throw _) (.pure _)

end

/-- A build is safe where the stages of the project that it starts with are. -/
theorem runs_run {s : Services} {name : String} {plan : Plan} {w : Workspace} (hR : R.Declares)
    (hI : R.holds w) (hB : ∀ {c : BuildContext}, (Project.require name).run w = .ok c.project w →
      R.Carries c ∧ Safe R (DepsFile.sync c.project.node)) :
    Runs R.admits w (run s name plan) fun _ _ => True := by
  intro hw
  have hstart : Runs R.admits w (start s name) fun c _ =>
      R.Carries c ∧ Safe R (DepsFile.sync c.project.node) := by
    refine .reader (Project.reader_require _) fun p hp => ?_
    have hprepare : Runs R.admits w (prepare s p) fun c _ =>
        R.Carries c ∧ Safe R (DepsFile.sync c.project.node) := by
      refine ((DepsFile.safe_verify hR _).runs w hI).bind fun _ w₁ _ _ _ => ?_
      exact .reader (Registry.reader_installed _) fun _ _ => .lift fun _ _ => .pure (hB hp)
    exact .ite (fun _ => .bind (Q := fun _ _ => False) (.throw _) fun _ _ _ _ h => h.elim)
      fun _ => hprepare
  refine (hstart.bind fun c w₁ _ hr hc => ?_) hw
  exact ((safe_advanceAll (safe_stage hc.1 hc.2) ..).bind fun _ => .pure _).runs_after hw hI hr

/-- A token of its own makes a build no less safe. -/
theorem runs_launch {s : Services} {name : String} {plan : Plan} {w : Workspace} (hR : R.Declares)
    (hC : R.admits .calls) (hI : R.holds w) (b : Bool)
    (hB : ∀ {c : BuildContext}, c.project.Found name w →
      R.Carries c ∧ Safe R (DepsFile.sync c.project.node)) :
    Runs R.admits w (launch b s name plan) fun _ _ => True := by
  have htoken : Runs R.admits w (modify fun w => { w with cancelled := b }) fun _ w' =>
      w' = { w with cancelled := b } := by
    intro _
    exact ⟨.single (.inr hC) (.calls w w.calls b) rfl rfl, rfl⟩
  intro hw
  refine (htoken.bind fun _ w₁ _ hr hw₁ => ?_) hw
  subst hw₁
  refine runs_run hR (R.lasts hw hr hI) fun hc => hB ?_
  exact (Project.require_eq_ok hc).2.congr rfl

end Build

end IntentBuild
