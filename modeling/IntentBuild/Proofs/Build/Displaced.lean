import IntentBuild.Proofs.Build.Mirror
import IntentBuild.Proofs.Extension.History

/-!
# Source files in the place of the document

The document of the graph is a file like any other.  Where the store lies in the directory of the sources, an
intent file may have its path for a source file.  Then a unit writes its source over the document, and the
next change of the graph writes the document over the source.  So the graph is no mirror of the directory
after a build that completes (`Build.unmirrored_after_run`).

What is written over the document leaves nothing of it, so a unit that compiles onto it goes on as if the
document were empty (`Compilation.conclude_blanked`), and whether a build goes this way to its end can be
evaluated without the text of the document (`Build.smooth_of_isDisplaced`).
-/

namespace IntentBuild

open Op

/-! ## Writing over the document -/

namespace Workspace

variable {w : Workspace}

/-- The workspace with an empty file in the place of the document. -/
def blanked (w : Workspace) : Workspace :=
  { w with files := w.files.putAt w.documentKey (.file (FileTree.textContent "") 0) }

theorem documentKey_ne_nil (w : Workspace) : w.documentKey ≠ [] := by
  rw [w.documentKey_eq]
  exact List.concat_ne_nil _ _

theorem Rooted.blanked (h : w.Rooted) : w.blanked.Rooted := by
  intro k hk
  have hk : k <+: w.files.key w.graph.root := hk
  have hne : k ≠ w.documentKey := by
    rintro rfl
    have hlength := hk.length_le
    rw [w.documentKey_eq] at hlength
    simp at hlength
  change (w.files.putAt _ _).entryAt k = _
  rw [FileTree.entryAt_putAt w.documentKey_ne_nil, if_neg hne]
  exact h k hk

theorem readText_blanked (w : Workspace) :
    (readText (documentPath w.graph)).run w.blanked = .ok "" w.blanked := by
  refine readText_run (b := "".toUTF8) ?_ (decode_toUTF8 "")
  change (w.files.putAt _ _).bytesAt? w.documentKey = _
  rw [FileTree.bytesAt?, FileTree.entryAt_putAt w.documentKey_ne_nil, if_pos rfl]
  rfl

end Workspace

namespace Op

variable {w : Workspace} {s text : String}

/-- Another text is written over what stands in the place of the document. -/
theorem writeIfChanged_document (hr : w.Rooted) (hs : (readText (documentPath w.graph)).run w = .ok s w)
    (hne : s ≠ text) : (writeIfChanged (documentPath w.graph) text).run w = .ok true { w with
      files := { w.files.putAt w.documentKey (.file (FileTree.textContent text) w.files.nextTick) with
        nextTick := w.files.nextTick + w.files.tickLength } } := by
  obtain ⟨-, b, hb, -⟩ := readText_eq_ok hs
  have hfile : (isFile (documentPath w.graph)).run w = .ok true w := by
    rw [← FileTree.isFile_iff.mpr ⟨b, hb⟩]
    rfl
  have hsame : (pure (s == text) : Op Bool).run w = .ok false w := by
    rw [beq_false_of_ne hne]
    rfl
  have hparent : (documentPath w.graph).parent = w.graph.root := by
    rw [documentPath, Path.child_name _ (by decide)]
    exact congrArg (Path.mk _) (List.dropLast_concat ..)
  have hdirs : (makeDirs (documentPath w.graph).parent).run w = .ok ⟨⟩ w := by
    rw [hparent]
    exact makeDirs_run (FileTree.makeDirs_of_dirs hr)
  have hfiles : files.run w = .ok w.files w := rfl
  have hwrite : w.files.write (documentPath w.graph) (FileTree.textContent text) =
      .ok { w.files.putAt w.documentKey (.file (FileTree.textContent text) w.files.nextTick) with
        nextTick := w.files.nextTick + w.files.tickLength } := by
    rw [FileTree.write, FileTree.place]
    unfold FileTree.bytesAt? at hb
    split at hb
    · rename_i hentry
      simp only [hentry]
      rfl
    · cases hb
  rw [writeIfChanged, bind_ok hfile, if_pos rfl, bind_ok hs, bind_ok hsame]
  dsimp only
  rw [if_neg Bool.false_ne_true, bind_ok hdirs, bind_ok hfiles, hwrite, bind_ok (lift_ok ..)]
  rfl

/-- What is written over the document leaves nothing of it. -/
theorem writeIfChanged_blanked (hr : w.Rooted) (hs : (readText (documentPath w.graph)).run w = .ok s w)
    (hne : s ≠ text) (htext : text ≠ "") :
    (writeIfChanged (documentPath w.graph) text).run w.blanked =
      (writeIfChanged (documentPath w.graph) text).run w := by
  rw [writeIfChanged_document hr hs hne]
  refine (writeIfChanged_document (w := w.blanked) hr.blanked w.readText_blanked (Ne.symm htext)).trans ?_
  have hput (e : FileEntry) : w.blanked.files.putAt w.documentKey e = w.files.putAt w.documentKey e := by
    rw [FileTree.putAt, FileTree.putAt]
    exact congrArg (fun l => { w.files with entries := l }) (Assoc.set_set ..)
  have hkey : w.blanked.documentKey = w.documentKey := rfl
  rw [hkey, hput]
  rfl

end Op

namespace Compilation

variable {c : BuildContext} {s : Shared} {f : Indexing.IntentFile} {S : Path} {text read source : String}
  {file : Node} {w : Workspace}

theorem sourceText_ne_empty (source : String) : sourceText source ≠ "" := by
  intro h
  have hlist := congrArg String.toList h
  rw [sourceText, String.toList_ofList] at hlist
  exact List.append_ne_nil_of_right_ne_nil _ (List.cons_ne_nil _ _) hlist

/-- A source that is written over the document leaves nothing of it. -/
theorem applySource_blanked (hS : c.project.source.pathEntry = .path S)
    (hdoc : S.child (Path.withoutIntentSuffix f.relative) = documentPath w.graph) (hr : w.Rooted)
    (hs : (readText (documentPath w.graph)).run w = .ok read w) (hne : read ≠ sourceText source) :
    (applySource c file f.relative source).run w.blanked = (applySource c file f.relative source).run w := by
  rw [applySource, bind_ok (Graph.pathOf_run hS _), bind_ok (Graph.pathOf_run hS _)]
  dsimp only
  rw [hdoc]
  exact bind_run_congr (writeIfChanged_blanked hr hs hne (sourceText_ne_empty source))

/-- So a unit that has such a result goes on as if the document were empty. -/
theorem conclude_blanked (hS : c.project.source.pathEntry = .path S)
    (hdoc : S.child (Path.withoutIntentSuffix f.relative) = documentPath w.graph) (hr : w.Rooted)
    (hs : (readText (documentPath w.graph)).run w = .ok read w) (hne : read ≠ sourceText source)
    (q : Work.Query) {p : CompileResult × Option Nat} (hp : p.1.source = some source) :
    ((unit c s f text file).conclude q p).run w.blanked = ((unit c s f text file).conclude q p).run w := by
  refine bind_run_congr ?_
  rw [apply_eq hp]
  exact bind_run_congr (applySource_blanked hS hdoc hr hs hne)

end Compilation

/-- A document does not begin as a list. -/
theorem Tables.document_ne (t : Tables) (s : String) : Text.unifyLineBreaks t.document ≠ "[" ++ s := by
  intro h
  have hhead := Tables.head?_document t
  rw [h, String.toList_append] at hhead
  exact absurd hhead (by simp)

/-! ## Builds that go over the document -/

namespace Build

variable {c : BuildContext} {ss : List Stage} {w w' w₀ : Workspace} {name relative text : String} {S : Path}
  {test : Workspace → Bool}

/-- Stages run in order, and then a test succeeds. -/
def isSmooth (c : BuildContext) (test : Workspace → Bool) : List Stage → Workspace → Bool
  | [], w => test w
  | s :: ss, w => !w.cancelled &&
      (runStage c s).gives w fun r w' => !r.depsUpdated && isSmooth c test ss w'

theorem smooth_of_isSmooth (h : isSmooth c test ss w = true) :
    ∃ w', Smooth c w ss w' ∧ test w' = true := by
  induction ss generalizing w with
  | nil => exact ⟨w, .nil w, h⟩
  | cons s ss ih =>
      rw [isSmooth, Bool.and_eq_true, Bool.not_eq_true'] at h
      obtain ⟨r, w₁, hrun, h₁⟩ := gives_eq_true.mp h.2
      rw [Bool.and_eq_true, Bool.not_eq_true'] at h₁
      obtain ⟨w', hsmooth, htest⟩ := ih h₁.2
      exact ⟨w', .cons h.1 hrun h₁.1 hsmooth, htest⟩

/-- Only one unit compiles, an intent file whose source file has the path of the document, and gets a list as
its source.  It goes on as if the document were empty, and then a test succeeds. -/
def isDisplaced (c : BuildContext) (relative : String) (S : Path) (test : Workspace → Bool) (w : Workspace) :
    Bool :=
  !w.cancelled && (Compilation.works c).gives w fun us w₁ => us.length == 1 && us.all fun u =>
    u.label == "compile " ++ relative && u.ask.gives w₁ fun q w₂ =>
      (u.obtain c.runner q.node q.stale q.prompt).gives w₂ fun p w₃ => p.1.source == some "[]" &&
        documentPath w₃.graph == S.child (Path.withoutIntentSuffix relative) &&
          (u.conclude q p).gives w₃.blanked fun _ w' => test w'

/-- A stage with a single unit does what the unit does. -/
theorem runUnits_run {ρ : Type} {works : Op (List (Work ρ))} {stage : Stage} {n : Runner} {u : Work ρ}
    {report : UnitReport ρ} {w₁ : Workspace} (hworks : works.run w = .ok [u] w₁)
    (hu : (u.run n).run w₁ = .ok report w') :
    (do return .ofUnits stage (← Work.runAll (← works) n) : Op StageReport).run w =
      .ok (.ofUnits stage [report]) w' := by
  have hall : (Work.runAll [u] n).run w₁ = .ok [report] w' := by
    rw [Work.runAll_eq (.inr (by simp)), List.mapM_cons, bind_ok hu, List.mapM_nil]
    rfl
  rw [bind_ok hworks, bind_ok hall]
  rfl

theorem smooth_of_isDisplaced (hp : c.project.Found name w₀) (hw₀ : w₀.Sound) (ha₀ : w₀.tables.Arranged)
    (hS : c.project.source.pathEntry = .path S) (ht : Workspace.Tended w₀ w)
    (h : isDisplaced c relative S test w = true) : ∃ w', Smooth c w [.compilation] w' ∧ test w' = true := by
  rw [isDisplaced, Bool.and_eq_true, Bool.not_eq_true'] at h
  obtain ⟨us, w₁, hworks, h₁⟩ := gives_eq_true.mp h.2
  rw [Bool.and_eq_true, beq_iff_eq, List.all_eq_true] at h₁
  obtain ⟨u, rfl⟩ := List.length_eq_one_iff.mp h₁.1
  have h₁ := h₁.2 u (.head _)
  rw [Bool.and_eq_true, beq_iff_eq] at h₁
  obtain ⟨hlabel, h₁⟩ := h₁
  obtain ⟨q, w₂, hask, h₂⟩ := gives_eq_true.mp h₁
  obtain ⟨p, w₃, hobtain, h₃⟩ := gives_eq_true.mp h₂
  simp only [Bool.and_eq_true, beq_iff_eq] at h₃
  obtain ⟨⟨hsource, hdoc⟩, h₃⟩ := h₃
  obtain ⟨report, w', hconclude, htest⟩ := gives_eq_true.mp h₃
  have hruns := Compilation.runs_works_tended (c := c) ht
  obtain ⟨-, s, hus⟩ := hruns.ok ht.sound hworks
  obtain ⟨f, text, file, hf, rfl⟩ := hus u (.head _)
  obtain rfl : f.relative = relative := String.append_right_inj _ |>.mp hlabel
  have hfares : (Compilation.unit c s f text file).Fares w₀.tending c.runner fun _ => True :=
    Compilation.fares_unit hp hw₀ ha₀ ht hf
  have ht₁ := ht.runs hruns
  rw [after_of_run hworks] at ht₁
  have ht₂ := hfares.ask.1.after w₁ ht₁
  rw [after_of_run hask] at ht₂
  have ht₃ := (hfares.obtain (q := q) trivial).1.after w₂ ht₂
  rw [after_of_run hobtain] at ht₃
  rw [Compilation.conclude_blanked hS hdoc.symm ht₃.rest.rooted ht₃.rest.readText_document
    (Tables.document_ne _ "]\n") q hsource] at hconclude
  have hunit : ((Compilation.unit c s f text file).run c.runner).run w₁ = .ok report w' := by
    rw [Work.run_eq, bind_ok hask, bind_ok hobtain, hconclude]
  exact ⟨w', .cons h.1 (runUnits_run hworks hunit) rfl (.nil w'), htest⟩

/-! ## Builds that leave no mirror -/

/-- After some history a project in its place is built with a plan, and this holds of what is left. -/
def Leaves (plan : Plan) (Q : Project → Workspace → Prop) : Prop :=
  ∃ (w : Workspace) (p : Project) (summary : BuildSummary) (w' : Workspace), Past w ∧ p.Found "demo" w ∧
    p.Placed (.ofText "/work/demo") ∧ (run generous "demo" plan).run w = .ok summary w' ∧ Q p w'

/-- A build with a plan of its own may leave out the stages that put the specifications into the graph. -/
theorem leaves_unlisted : Leaves { stages := [.indexing, .compilation] } fun p w' =>
    (Graph.fileNodes p.specs Graph.specKind).run w' = .ok [] w' ∧
      w'.files.listFiles ((Path.ofText "/work/demo").child "specs") Stage.markdown ≠ [] := by
  have htest : (Project.inPlace sample fun p =>
      (run generous "demo" { stages := [.indexing, .compilation] }).gives sample fun _ w' =>
        (Graph.fileNodes p.specs Graph.specKind).gives w' fun l _ => l.isEmpty &&
          !(w'.files.listFiles ((Path.ofText "/work/demo").child "specs") Stage.markdown).isEmpty) = true := by
    decide +kernel
  obtain ⟨p, hfound, hplaced, hbuilt⟩ := Project.found_of_inPlace htest
  obtain ⟨summary, w', hrun, hlisted⟩ := gives_eq_true.mp hbuilt
  obtain ⟨l, v, hl, hempty⟩ := gives_eq_true.mp hlisted
  rw [Bool.and_eq_true, List.isEmpty_iff, Bool.not_eq_true', List.isEmpty_eq_false_iff] at hempty
  obtain ⟨rfl, hfiles⟩ := hempty
  obtain rfl := (Graph.reader_fileNodes _ _).eq hl
  exact ⟨sample, p, summary, v, (past_storing _).tried _ _, hfound, hplaced, hrun, hl, hfiles⟩

/-- A new graph whose store lies in the directory of the sources of a project. -/
@[irreducible]
def nested : Workspace := (openGraph (.ofText "/work/demo/src") "default").after Project.blank

/-- The project with an intent file whose source file has the path of the document. -/
@[irreducible]
def housed : Workspace := tried nested "/work/demo/intent/" "graph.json.md"

theorem openGraph_nested :
    (openGraph (.ofText "/work/demo/src") "default").run Project.blank = .ok ⟨⟩ nested := by
  rw [nested]
  exact Workspace.openGraph_blank _ _

theorem proper_nested : nested.Proper :=
  Workspace.Proper.opened Project.proper_blank (Workspace.isFile_blank _) openGraph_nested

theorem fresh_nested : nested.Fresh := Workspace.fresh_of_openGraph (by decide +kernel) openGraph_nested

theorem past_housed : Past housed := by
  unfold housed
  exact (Past.empty proper_nested fresh_nested.tables).tried _ _

/-- A file that is written elsewhere leaves a graph at rest at rest. -/
theorem tended_written (h : Workspace.Tended w₀ w) (full text : String)
    (hkey : w₀.files.key (.ofText full) ≠ w₀.documentKey) :
    Workspace.Tended w₀ ((writeIfChanged (.ofText full) text).after w) :=
  h.runs (runs_writeIfChanged ⟨trivial, hkey, fun _ hn => Path.isName_of_mem_ofText hn⟩)

theorem tended_housed : housed.AtRest ∧ housed.Proper ∧ housed.tables.Arranged := by
  obtain ⟨hnodes, hspecs, hintents⟩ :
      ((Project.setup "demo" (.ofText "/work/demo")).after nested).tables.nodes ≠ [] ∧
      ((Project.setup "demo" (.ofText "/work/demo")).after nested).files.key
        (.ofText "/work/demo/specs/a.md") ≠
          ((Project.setup "demo" (.ofText "/work/demo")).after nested).documentKey ∧
      ((Project.setup "demo" (.ofText "/work/demo")).after nested).files.key
        (.ofText "/work/demo/intent/graph.json.md") ≠
          ((Project.setup "demo" (.ofText "/work/demo")).after nested).documentKey := by
    decide +kernel
  have hidle := ((fresh_nested.idle proper_nested).setup "demo" "/work/demo").1
  have hrest : ((Project.setup "demo" (.ofText "/work/demo")).after nested).AtRest := by
    refine hidle.rest.resolve_right fun hfresh => ?_
    exact hnodes (congrArg Tables.nodes hfresh.tables)
  have hset := Workspace.Tended.refl hrest hidle.proper hidle.arranged
  have hspec := tended_written hset "/work/demo/specs/a.md" "a\n" hspecs
  have hintent := tended_written hspec "/work/demo/intent/graph.json.md" "f\n" hintents
  have htried := tended_run hintent.rest hintent.proper hintent.arranged silent "demo"
    { stages := [.compilation] }
  unfold housed tried stocked
  rw [Project.spelling_eq]
  exact ⟨htried.rest, htried.proper, htried.arranged⟩

/-- The store writes its document over a source file in its place. -/
theorem leaves_displaced : Leaves .default fun p w' => ∃ path n text,
    (Graph.fileNodes p.source Graph.sourceKind).run w' = .ok [(path, n)] w' ∧ n.content = some "[]\n" ∧
      (readText path).run w' = .ok text w' ∧ text ≠ "[]\n" := by
  have htest : (Project.inPlace housed fun p => (start generous "demo").gives housed fun c v =>
      isSmooth c (isDisplaced c "graph.json.md" ((Path.ofText "/work/demo").child "src") (isSmooth c (fun w' =>
        (Graph.fileNodes p.source Graph.sourceKind).gives w' fun l _ => l.length == 1 &&
          l.all fun e => e.1 == documentPath w'.graph && e.2.content == some "[]\n") [.refresh]))
        [.techStack, .lowering, .refresh, .indexing] v) = true := by
    decide +kernel
  obtain ⟨hrest, hproper, harranged⟩ := tended_housed
  obtain ⟨p, hfound, hplaced, hbuilt⟩ := Project.found_of_inPlace htest
  obtain ⟨c, v, hstart, hsmooth⟩ := gives_eq_true.mp hbuilt
  obtain ⟨hfound', -⟩ := start_eq_ok hrest.sound hstart
  obtain rfl := hfound.unique hfound'
  have htended := (Workspace.guards_of_safe (safe_start housed.declares_caring generous "demo")).after housed
    (.refl hrest hproper harranged)
  rw [after_of_run hstart] at htended
  obtain ⟨w₁, hfirst, hcompile⟩ := smooth_of_isSmooth hsmooth
  obtain ⟨w₂, hcompiled, hlast⟩ := smooth_of_isDisplaced hfound hrest.sound harranged hplaced.source
    (hfirst.tended hfound hrest.sound harranged htended) hcompile
  obtain ⟨w', hrefreshed, hleft⟩ := smooth_of_isSmooth hlast
  obtain ⟨summary, hrun⟩ : ∃ summary, (run generous "demo" .default).run housed = .ok summary w' :=
    ((hfirst.append hcompiled).append hrefreshed).run (by decide) hstart (by decide)
  obtain ⟨l, w'', hl, hnode⟩ := gives_eq_true.mp hleft
  obtain rfl := (Graph.reader_fileNodes _ _).eq hl
  simp only [Bool.and_eq_true, beq_iff_eq, List.all_eq_true] at hnode
  obtain ⟨e, rfl⟩ := List.length_eq_one_iff.mp hnode.1
  obtain ⟨hpath, hcontent⟩ := hnode.2 e (.head _)
  have hfinal := (tended_run hrest hproper harranged generous "demo" .default).rest
  rw [after_of_run hrun] at hfinal
  exact ⟨housed, c.project, summary, w'', past_housed, hfound, hplaced, hrun, e.1, e.2, _, hl, hcontent,
    hpath ▸ hfinal.readText_document, Tables.document_ne _ "]\n"⟩

/-- Not every build leaves the graph as a mirror of the directory.  A plan without lowering may do nothing
for the specifications.  And under the default plan, where the store lies in the directory of the sources,
its document takes the place of a source file. -/
theorem unmirrored_after_run :
    (Leaves { stages := [.indexing, .compilation] } fun p w' =>
      (Graph.fileNodes p.specs Graph.specKind).run w' = .ok [] w' ∧
        w'.files.listFiles ((Path.ofText "/work/demo").child "specs") Stage.markdown ≠ []) ∧
    Leaves .default fun p w' => ∃ path n text,
      (Graph.fileNodes p.source Graph.sourceKind).run w' = .ok [(path, n)] w' ∧ n.content = some "[]\n" ∧
        (readText path).run w' = .ok text w' ∧ text ≠ "[]\n" :=
  ⟨leaves_unlisted, leaves_displaced⟩

end Build

end IntentBuild
