import IntentBuild.Proofs.Build.Compiled
import IntentBuild.Proofs.Build.Freshness
import IntentBuild.Proofs.Extension.Anchors
import IntentBuild.Proofs.Operation.Rest

/-!
# What builds leave

A build leaves a graph at rest at rest, its anchors where they are with what they hold, and makes no
extension (`Workspace.Tended`), whether it fails or not.  Nearly all that it does leaves the file of the
document alone.  A source file may be compiled onto the document, but then its node gets the text of the file,
and with that the document is written over it (`Compilation.tended_applySource`).

An operation *guards* a condition if the condition holds afterwards wherever it held before.
-/

namespace IntentBuild

open Op
open Assoc (keys)

/-! ## Guards -/

namespace Op

variable {α β : Type} {I : Workspace → Prop}

/-- The condition holds after the operation, whether it fails or not, where it held before. -/
structure Guards (I : Workspace → Prop) (x : Op α) : Prop where
  /-- What the operation leaves. -/
  after : ∀ w, I w → I (x.after w)

namespace Guards

/-- An operation after another one, where what the first one gave is known. -/
theorem bind_run {x : Op α} {f : α → Op β} (hx : Guards I x)
    (hf : ∀ w a w', I w → x.run w = .ok a w' → Guards I (f a)) : Guards I (x >>= f) where
  after w hw := by
    have h := hx.after w hw
    cases hrun : x.run w with
    | ok a w' =>
        rw [after_bind_ok hrun]
        rw [after_of_run hrun] at h
        exact (hf w a w' hw hrun).after w' h
    | error e w' =>
        rw [after_bind_error hrun]
        rwa [Op.after, hrun] at h

theorem bind {x : Op α} {f : α → Op β} (hx : Guards I x) (hf : ∀ a, Guards I (f a)) :
    Guards I (x >>= f) :=
  hx.bind_run fun _ a _ _ _ => hf a

theorem of_reader {x : Op α} (hx : Reader x) : Guards I x where
  after w hw := by
    rcases hx.out w with ⟨a, h⟩ | ⟨e, h⟩ <;> rwa [Op.after, h]

theorem pure (a : α) : Guards I (Pure.pure a) := of_reader (.pure a)

theorem throw (e : Failure) : Guards I (MonadExcept.throw e : Op α) := of_reader (.throw e)

theorem ite {c : Prop} [Decidable c] {x y : Op α} (hx : Guards I x) (hy : Guards I y) :
    Guards I (if c then x else y) := by
  split
  · exact hx
  · exact hy

theorem tryCatch {x : Op α} {h : Failure → Op α} (hx : Guards I x) (hh : ∀ e, Guards I (h e)) :
    Guards I (MonadExcept.tryCatch x h) where
  after w hw := by
    have hafter := hx.after w hw
    cases hrun : x.run w with
    | ok a w' =>
        rw [after_of_run (tryCatch_ok hrun)]
        rwa [after_of_run hrun] at hafter
    | error e w' =>
        rw [Op.after, tryCatch_error hrun]
        rw [Op.after, hrun] at hafter
        exact (hh e).after w' hafter

/-- Operations are judged by what they leave, if that stands notices and calls. -/
def judgement {I : Workspace → Prop} (hn : ∀ n, Guards I (notify n))
    (hc : ∀ {α : Type} (f : Workspace → α × List Call × Bool), Guards I
      (modifyGet fun w => ((f w).1, { w with calls := (f w).2.1, cancelled := (f w).2.2 }))) : Judgement where
  Holds x Q := Guards I x ∧ ∀ w a w', I w → x.run w = .ok a w' → Q a
  reader hx h := ⟨of_reader hx, fun _ _ _ _ hrun => h hrun⟩
  bind {α β x f P Q} hx hf := by
    refine ⟨hx.1.bind_run fun w a w' hw hrun => (hf a (hx.2 w a w' hw hrun)).1, fun w b w' hw hrun => ?_⟩
    obtain ⟨a, v, hfirst, hrest⟩ := bind_eq_ok.mp hrun
    have hv : I v := after_of_run hfirst ▸ hx.1.after w hw
    exact (hf a (hx.2 w a v hw hfirst)).2 v b w' hv hrest
  outcomeOf {α x Q} hx := by
    refine ⟨.tryCatch ?_ fun _ => pure _, fun w o w' hw hrun a ha => ?_⟩
    · rw [map_eq_pure_bind]
      exact hx.1.bind fun _ => pure _
    · subst ha
      cases hfirst : x.run w with
      | ok b v =>
          have hok : (Except.ok <$> x : Op (Except Failure α)).run w = .ok (.ok b) v := by
            rw [map_eq_pure_bind, bind_ok hfirst]
            rfl
          cases (tryCatch_ok hok).symm.trans hrun
          exact hx.2 w a _ hw hfirst
      | error e v =>
          have herror : (Except.ok <$> x : Op (Except Failure α)).run w = .error e v := by
            rw [map_eq_pure_bind, bind_error hfirst]
          cases (tryCatch_error herror).symm.trans hrun
  notify n := ⟨hn n, fun _ _ _ _ _ => trivial⟩
  calls f := ⟨hc f, fun _ _ _ _ _ => trivial⟩

end Guards

end Op

/-! ## The condition -/

namespace Workspace

/-- What builds leave, from a first workspace on. -/
structure Tended (w₀ w : Workspace) : Prop where
  /-- It comes from the first one. -/
  reach : Reach Event.Any w₀ w
  /-- The graph is at rest. -/
  rest : w.AtRest
  /-- The names of files are proper. -/
  proper : w.Proper
  /-- The anchors are arranged. -/
  arranged : w.tables.Arranged
  /-- The anchors hold what they held. -/
  holds : w₀.tables.Holds w.tables

/-- The changes that leave the anchors and the file of the document alone, and write only files with proper
names. -/
def caring (w : Workspace) : Regime :=
  .tending fun e => e.Clears w.files.workingDirectory w.documentKey ∧ e.Proper

variable {w₀ w w' : Workspace} {α : Type} {x : Op α} {Q : α → Workspace → Prop}

theorem Tended.sound (h : Tended w₀ w) : w.Sound := h.rest.sound

theorem Tended.refl (h : w.AtRest) (hp : w.Proper) (ha : w.tables.Arranged) : Tended w w :=
  ⟨.refl w, h, hp, ha, .refl _⟩

/-- A change to another graph at rest that leaves the anchors alone. -/
theorem Tended.of_reach (h : Tended w₀ w) (hr : Reach (Regime.tending Event.Proper).admits w w')
    (hrest : w'.AtRest) : Tended w₀ w' := by
  obtain ⟨harranged, hholds⟩ := (hr.mono fun _ he => he.1).holds h.sound h.arranged h.holds
  exact ⟨h.reach.trans (hr.mono fun _ _ => trivial), hrest, (hr.mono fun _ he => he.2).proper h.proper,
    harranged, hholds⟩

theorem Tended.way (h : Tended w₀ w) (hw : Way w₀.caring.admits w w') : Tended w₀ w' := by
  refine h.of_reach (hw.reach.mono fun _ he => ⟨he.1, he.2.2⟩) (h.rest.way (hw.mono fun _ he => ?_))
  rw [h.reach.workingDirectory_eq, h.reach.documentKey_eq]
  exact he.2.1

theorem Tended.runs (h : Tended w₀ w) (hx : Runs w₀.caring.admits w x Q) : Tended w₀ (x.after w) :=
  h.way (hx.way h.sound)

theorem guards_of_safe (hx : Safe w₀.caring x) : Guards (Tended w₀) x :=
  ⟨fun w h => h.runs (hx.runs w h.arranged)⟩

/-! ## What is asked for -/

theorem caring_of_not_writes (w : Workspace) (e : Event) (he : ¬ e.Writes) :
    e.Clears w.files.workingDirectory w.documentKey ∧ e.Proper :=
  ⟨Event.clears_of_not_writes he, Build.proper_of_not_writes he⟩

theorem declares_caring (w : Workspace) : w.caring.Declares :=
  Regime.declares_tending w.caring_of_not_writes

theorem records_caring (w : Workspace) : w.caring.Records := Regime.records_tending w.caring_of_not_writes

theorem files_caring (w : Workspace) {project : Node} {P : Path} (hP : project.pathEntry = .path P) :
    w.caring.Files ((P.child ".intentcode").child "deps.json") :=
  Regime.files_tending fun text =>
    ⟨⟨(w.files_clearing P text).1, (Build.files_proper hP text).1⟩,
      ⟨(w.files_clearing P text).2, (Build.files_proper hP text).2⟩⟩

theorem safe_sync_caring (w : Workspace) (project : Node) : Safe w.caring (DepsFile.sync project) :=
  DepsFile.safe_sync w.declares_caring (fun old _ ht _ => ⟨fun h : old.type.IsAnchor => by
    rw [ht] at h; exact h.elim, trivial, trivial⟩) w.files_caring

variable {c : BuildContext}

theorem resolves_caring (w : Workspace) (file : Node) : w.caring.Resolves c file :=
  Regime.resolves_tending w.caring_of_not_writes file <|
    Regime.resolves_only w.caring_of_not_writes file fun {P} hP _ =>
      ⟨w.summary_clearing P, Build.isName_child (Build.isName_child (Graph.isName_of_pathEntry hP) _) _⟩

theorem lowers_caring (w : Workspace) (file : Node) : w.caring.Lowers c file :=
  Regime.lowers_tending w.caring_of_not_writes file <|
    Regime.lowers_only w.caring_of_not_writes file fun he _ hP =>
      ⟨fun text => ⟨(w.enters_clearing c he hP).1 text, Build.isName_child (Graph.isName_of_pathEntry hP) _⟩,
        ⟨(w.enters_clearing c he hP).2, trivial⟩⟩

theorem compiles_caring (w : Workspace) (file : Node) {relative : String} {S : Path}
    (hS : c.project.source.pathEntry = .path S)
    (hne : w.files.key (S.child (Path.withoutIntentSuffix relative)) ≠ w.documentKey) :
    w.caring.Compiles c file relative :=
  Regime.compiles_tending w.caring_of_not_writes file <|
    Regime.compiles_only w.caring_of_not_writes file fun hP _ => by
      cases hS.symm.trans hP
      exact ⟨hne, Build.isName_child (Graph.isName_of_pathEntry hP) _⟩

theorem compiles_proper (file : Node) (relative : String) :
    (Regime.tending Event.Proper).Compiles c file relative :=
  have hB (e : Event) : ¬ e.Writes → e.Proper := Build.proper_of_not_writes
  Regime.compiles_tending hB file <| Regime.compiles_only hB file fun hP _ =>
    Build.isName_child (Graph.isName_of_pathEntry hP) _

end Workspace

/-! ## Compiling -/

/-- A write that fails changes nothing but directories. -/
theorem Op.ends_writeIfChanged {w : Workspace} {p : Path} {text : String} :
    Ends w (writeIfChanged p text) (fun _ _ => True) (Way Event.None w) := by
  have dirs : Ends w (makeDirs p.parent) (fun _ w' => Way Event.None w w') (Way Event.None w) := by
    refine .reads rfl fun _ => ?_
    cases hm : w.files.makeDirs p.parent with
    | ok t =>
        exact ⟨.of_quiet (e := .makeDirs) trivial (.makeDirs hm) rfl,
          .quiet (e := .makeDirs) trivial (.makeDirs hm) rfl rfl⟩
    | error e => exact ⟨.refl w, .refl w⟩
  have write (same : Bool) : Ends w (if same then return false
      else do
        makeDirs p.parent
        setFiles (← lift .file ((← files).write p (FileTree.textContent text)))
        return true) (fun _ _ => True) (Way Event.None w) := by
    refine .ite (fun _ => .pure trivial) fun _ => dirs.bind fun _ w₁ _ _ hway => .reads rfl fun _ => ?_
    cases hwrite : w₁.files.write p (FileTree.textContent text) with
    | ok t => exact ⟨⟨.single (.inr trivial) (.write hwrite), rfl⟩, trivial⟩
    | error e => exact ⟨.refl w₁, hway⟩
  refine .reads (isFile_run p w) (.ite (fun _ => ?_) fun _ => ?_)
  · exact .reader (reader_readText p) (.refl w) fun _ _ => .reads rfl (write _)
  · exact .reads rfl (write _)

section

variable {w₀ w w' : Workspace} {c : BuildContext} {name : String} {P S : Path} {f : Indexing.IntentFile}

/-- An intent file that is shown is listed. -/
theorem Indexing.Shown.mem_listed (h : Shown c w f) (hP : c.project.intent.pathEntry = .path P)
    (hne : P.names ≠ []) (ht : w.files.Proper) : f ∈ listed w.files P := by
  obtain ⟨P', hP', hpath⟩ := h.shown
  cases hP.symm.trans hP'
  obtain ⟨names, hnames, hbelow⟩ := List.mem_map.mp hpath
  have hbelow : P.below names = f.path := hbelow
  obtain ⟨parts, hparts, hrelative⟩ := h.relative
  have hrow := Stage.row_of_mem_filesBelow ht hnames
  rw [hbelow] at hrow
  obtain rfl := hparts.unique (hrow.hasParts hP hne)
  refine Indexing.mem_listed.mpr ⟨parts, hnames, ?_⟩
  rw [fileAt?, hbelow, h.target, Option.map_some, ← hrelative]

/-- The roots of a project that is found keep paths. -/
theorem Project.Found.placed {p : Project} (hp : p.Found name w) (hw : w.Sound) (ha : w.tables.Arranged) :
    (∃ P, p.intent.pathEntry = .path P ∧ P.names ≠ []) ∧
      ∃ S, p.source.pathEntry = .path S ∧ S.names ≠ [] := by
  obtain ⟨hintent, hkey⟩ := (Tables.findNode?_eq_some hw.wellFormed).mp hp.intent
  obtain ⟨hsource, hkey'⟩ := (Tables.findNode?_eq_some hw.wellFormed).mp hp.source
  exact ⟨ha.placed hintent (.inl (congrArg NodeKey.type hkey)),
    ha.placed hsource (.inr (congrArg NodeKey.type hkey'))⟩

/-- The root of the source files stays in the graph. -/
theorem Workspace.Tended.mem_source (h : Tended w₀ w) (hp : c.project.Found name w₀) (hw : w₀.Sound) :
    c.project.source.id ∈ keys w.tables.nodes := by
  obtain ⟨hsource, hkey⟩ := (Tables.findNode?_eq_some hw.wellFormed).mp hp.source
  have htype : c.project.source.type = .sourceRoot := congrArg NodeKey.type hkey
  obtain ⟨n, hn, -⟩ := h.holds.kept hsource (htype ▸ trivial)
  exact Assoc.mem_keys_of_get? hn

end

/-- Operations are judged by leaving a graph at rest at rest. -/
def Workspace.tending (w₀ : Workspace) : Judgement :=
  Guards.judgement (I := Workspace.Tended w₀) (fun n => Workspace.guards_of_safe (safe_notify n)) fun f =>
    Workspace.guards_of_safe ⟨fun w _ _ => ⟨.single (.inr w₀.records_caring.calls) (.calls w (f w).2.1
      (f w).2.2) rfl rfl, trivial⟩⟩

/-- A unit fares well when each step to apply its results leaves a graph at rest at rest. -/
theorem Work.fares_tending {w₀ : Workspace} {ρ : Type} {u : Work ρ} (r : Runner) (hask : Safe w₀.caring u.ask)
    (hstep : ∀ a, ∀ x ∈ u.steps a, Guards (Workspace.Tended w₀) x) :
    u.Fares w₀.tending r fun _ => True where
  ask := ⟨Workspace.guards_of_safe hask, fun _ _ _ _ _ => trivial⟩
  cached {q} _ := by
    refine ⟨Workspace.guards_of_safe (Work.safe_cached ..), fun w p w' hw hrun a ha => ?_⟩
    obtain ⟨-, hcheck⟩ := (Work.runs_cached (A := Event.Any) u r.cache q.node q.stale q.prompt w).ok
      hw.sound hrun
    exact ⟨0, hcheck a ha⟩
  store _ _ _ := by
    refine ⟨Workspace.guards_of_safe (Cache.safe_store (fun q _ => ?_) ?_), fun _ _ _ _ _ => trivial⟩
    · exact w₀.records_caring.record q
    · exact w₀.records_caring.dropRecord
  step {a} _ x hx := ⟨hstep a x hx, fun _ _ _ _ _ => trivial⟩
  stamp _ := ⟨Workspace.guards_of_safe (Work.safe_stamp w₀.records_caring.toKeeps ..),
    fun _ _ _ _ _ => trivial⟩

/-! ## Over the document -/

namespace Workspace

/-- Some file stands in the place of the document, and all else is as in a graph at rest. -/
structure Covered (w : Workspace) : Prop where
  /-- The graph is in order. -/
  sound : w.Sound
  /-- Every node has a name. -/
  named : w.tables.Named
  /-- The directory of the document is there. -/
  rooted : w.Rooted
  /-- No transaction is open. -/
  closed : w.graph.depth = 0
  /-- A file stands in the place of the document. -/
  filed : w.Filed

theorem AtRest.covered {w : Workspace} (h : w.AtRest) : w.Covered :=
  ⟨h.sound, h.named, h.rooted, h.closed, h.toSaved.filed⟩

namespace Covered

variable {w w' : Workspace} {c : BuildContext} {S : Path} {f : Indexing.IntentFile}

theorem writable (h : w.Covered) : w.Writable := h.filed.writable h.rooted

/-- Whatever is written over the document is a file. -/
theorem of_write {path : Path} {text : String} {b : Bool} (h : w.Covered)
    (hkey : w.files.key path = w.documentKey) (hrun : (writeIfChanged path text).run w = .ok b w') :
    w'.Covered := by
  have hway : Way Event.Any w ((writeIfChanged path text).after w) :=
    (runs_writeIfChanged trivial).way h.sound
  rw [after_of_run hrun] at hway
  refine ⟨hway.sound h.sound, hway.reach.named h.named, hway.reach.rooted h.rooted,
    hway.depth.trans h.closed, ?_⟩
  obtain ⟨t, rfl, hwrote⟩ := writeIfChanged_eq_ok hrun
  obtain ⟨b, hb, -⟩ := hwrote.bytes
  refine ⟨b, ?_⟩
  rw [hway.reach.documentKey_eq, ← hkey]
  exact hb

/-- The nodes of a source file are made. -/
theorem placeOf (h : w.Covered) (hsource : c.project.source.id ∈ keys w.tables.nodes)
    (hS : c.project.source.pathEntry = .path S) (hne : S.names ≠ []) (hf : Compilation.HasSource f) :
    ∃ n w', (Graph.placeOf c.project.source (S.below (Compilation.sourceRow f)).text Graph.sourceKind).run w =
      .ok n w' ∧ w'.Covered ∧ w'.tables.node? n.id = some n := by
  have hclear {e : Event} (he : Graph.Placing Graph.sourceKind (Compilation.sourceRow f) e) :
      e.Clears w.files.workingDirectory w.documentKey := by
    cases e <;> first | exact he.elim | exact trivial
  have hends : Ends w (Graph.placeOf c.project.source _ Graph.sourceKind) _ _ :=
    Graph.ends_placeOf hS (by decide) hf.isRow hsource
  rw [← Graph.text_below_eq_address hS (.inl hne) hf.isRow] at hends
  have hends := hends h.sound
  have hparts := hf.hasParts hS hne
  generalize (S.below (Compilation.sourceRow f)).text = path at hparts hends ⊢
  have hplaces : Runs _ w (Graph.placeOf c.project.source path Graph.sourceKind) _ :=
    Graph.runs_placeOf hparts
  cases hrun : (Graph.placeOf c.project.source path Graph.sourceKind).run w with
  | error e w' =>
      rw [hrun] at hends
      have hreach := (hplaces.error h.sound hrun).mono fun _ => hclear
      exact absurd ((hreach.filed h.filed).writable (hreach.rooted h.rooted)) hends.2.2.1
  | ok n w' =>
      rw [hrun] at hends
      have hreach := (hplaces.ok h.sound hrun).1.mono fun _ => hclear
      exact ⟨n, w', rfl, ⟨hreach.sound h.sound, hreach.named h.named, hreach.rooted h.rooted,
        hends.1.depth.trans h.closed, hreach.filed h.filed⟩, hends.2.2.1⟩

/-- The document is written over what stands in its place. -/
theorem setContent {n : Node} (h : w.Covered) (hn : w.tables.node? n.id = some n) (content : Change String) :
    ∃ n' w', (Graph.setContent n content .keep .keep).run w = .ok n' w' ∧ w'.AtRest := by
  obtain ⟨n', w', hrun, hsaved⟩ :=
    @Graph.setContent_run w n n content .keep .keep h.sound hn trivial h.writable
  have hway : Way Event.Any w ((Graph.setContent n content .keep .keep).after w) :=
    (Graph.runs_setContent fun _ _ _ _ => trivial).way h.sound
  rw [after_of_run hrun] at hway
  exact ⟨n', w', hrun, hsaved h.closed, hway.sound h.sound, hway.reach.named h.named,
    hway.reach.rooted h.rooted, hway.depth.trans h.closed⟩

end Covered

end Workspace

namespace Compilation

variable {w₀ w : Workspace} {c : BuildContext} {name text : String} {S : Path} {f : Indexing.IntentFile}
  {s : Shared} {file : Node}

/-- A source file that is written onto the document is followed by the document with its text. -/
theorem atRest_applySource (h : Workspace.Tended w₀ w) (hp : c.project.Found name w₀)
    (hw₀ : w₀.Sound) (hS : c.project.source.pathEntry = .path S) (hne : S.names ≠ []) (hf : HasSource f)
    (hkey : w.files.key (S.below (sourceRow f)) = w.documentKey) (file : Node) (source : String) :
    ((applySource c file f.relative source).after w).AtRest := by
  have hsource := h.mem_source hp hw₀
  rw [applySource, after_bind_ok (Graph.pathOf_run hS w)]
  dsimp only
  rw [hf.path S]
  cases hwrite : (writeIfChanged (S.below (sourceRow f)) (sourceText source)).run w with
  | error e w₁ =>
      rw [after_bind_error hwrite]
      have hend := @ends_writeIfChanged w (S.below (sourceRow f)) (sourceText source) h.sound
      rw [hwrite] at hend
      exact h.rest.way hend.2.of_quiet
  | ok b w₁ =>
      have hcovered : w₁.Covered := h.rest.covered.of_write hkey hwrite
      obtain ⟨t, rfl, -⟩ := writeIfChanged_eq_ok hwrite
      obtain ⟨n, w₂, hplace, hcovered₂, hn⟩ := hcovered.placeOf hsource hS hne hf
      obtain ⟨n', w₃, hput, hrest⟩ := hcovered₂.setContent hn (.put (some (sourceText source)))
      rw [after_bind_ok hwrite, after_bind_ok hplace, after_bind_ok hput, after_discard]
      exact hrest.way ((Graph.runs_link fun _ _ => trivial).way hrest.sound)

/-- A result for an intent file that is listed is applied in steps that leave a graph at rest at rest. -/
theorem guards_steps (hp : c.project.Found name w₀) (hw₀ : w₀.Sound)
    (hS : c.project.source.pathEntry = .path S) (hne : S.names ≠ []) (hf : HasSource f) (file : Node)
    (text : String) (r : CompileResult) :
    ∀ x ∈ steps c file f.relative text r, Guards (Workspace.Tended w₀) x := by
  intro x hx
  obtain ⟨s, rfl⟩ | rfl | rfl := mem_steps hx
  · by_cases hkey : w₀.files.key (S.child (Path.withoutIntentSuffix f.relative)) = w₀.documentKey
    · refine ⟨fun w h => h.of_reach ?_ ?_⟩
      · have hsafe := safe_applySource (Workspace.compiles_proper (c := c) file f.relative) s
        exact (hsafe.runs w h.arranged).after h.sound
      · rw [← h.reach.key_eq, ← h.reach.documentKey_eq, hf.path S] at hkey
        exact atRest_applySource h hp hw₀ hS hne hf hkey file s
    · exact Workspace.guards_of_safe (safe_applySource (w₀.compiles_caring file hS hkey) s)
  · exact Workspace.guards_of_safe (safe_declare w₀.declares_caring ..)
  · exact Workspace.guards_of_safe (safe_keep (Regime.derives_tending w₀.caring_of_not_writes file id)
      (fun _ _ _ hk hm => Regime.content_tending w₀.caring_of_not_writes hk hm) ..)

/-- The unit of an intent file fares well while the graph is left at rest. -/
theorem fares_unit (hp : c.project.Found name w₀) (hw₀ : w₀.Sound) (ha₀ : w₀.tables.Arranged)
    (hw : Workspace.Tended w₀ w) (hf : Indexing.Shown c w f) :
    (unit c s f text file).Fares w₀.tending c.runner fun _ => True := by
  obtain ⟨⟨P, hP, hPne⟩, S, hS, hSne⟩ := hp.placed hw₀ ha₀
  have hsource : HasSource f := hasSource_of_mem hw.proper.files (hf.mem_listed hP hPne hw.proper.files)
  have hasks : Safe w₀.caring (Work.ask (unit c s f text file)) :=
    Work.Fits.ask (u := { unit c s f text file with steps := fun _ => [] })
      ⟨.pure _, (Regime.derives_tending w₀.caring_of_not_writes file id).safe_node _, nofun⟩
  exact Work.fares_tending _ hasks fun _ => guards_steps hp hw₀ hS hSne hsource _ _ _

/-- The units of the stage are made while the graph is left at rest. -/
theorem runs_works_tended (h : Workspace.Tended w₀ w) : Runs w₀.caring.admits w (works c) fun us _ =>
    ∃ s, ∀ u ∈ us, ∃ f text file, Indexing.Shown c w f ∧ u = unit c s f text file := by
  have hplaces : w₀.caring.Places c.project.intent Graph.intentKind :=
    Regime.places_tending w₀.caring_of_not_writes _ id id
  refine (runs_works w₀.declares_caring hplaces.shows h.arranged).weaken fun us _ _ hus => ?_
  obtain ⟨s, -, -, -, -, hus⟩ := hus
  exact ⟨s, hus⟩

/-- The stage leaves a graph at rest at rest. -/
theorem guards_run (hp : c.project.Found name w₀) (hw₀ : w₀.Sound) (ha₀ : w₀.tables.Arranged) :
    Guards (Workspace.Tended w₀) (run c) := by
  have hworks : Guards (Workspace.Tended w₀) (works c) := ⟨fun _ h => h.runs (runs_works_tended h)⟩
  refine hworks.bind_run fun w us w' h hrun => ?_
  obtain ⟨-, s, hus⟩ := (runs_works_tended h).ok h.sound hrun
  have hrow : w₀.tending.Holds (Work.runAll us c.runner) fun _ => True := by
    refine Work.Fares.runAll fun u hu => ?_
    obtain ⟨f, text, file, hf, rfl⟩ := hus u hu
    exact ⟨_, fares_unit hp hw₀ ha₀ h hf⟩
  exact hrow.1.bind fun _ => .pure _

end Compilation

/-! ## Builds -/

namespace Build

variable {w₀ : Workspace} {c : BuildContext} {name : String}

/-- Every stage leaves a graph at rest at rest. -/
theorem guards_runStage (hp : c.project.Found name w₀) (hw₀ : w₀.Sound) (ha₀ : w₀.tables.Arranged)
    (s : Stage) : Guards (Workspace.Tended w₀) (runStage c s) := by
  have hcare := w₀.caring_of_not_writes
  have hspecs : w₀.caring.Shows c.project.specs Graph.specKind :=
    (Regime.places_tending hcare _ id id).shows
  have hintent : w₀.caring.Shows c.project.intent Graph.intentKind :=
    (Regime.places_tending hcare _ id id).shows
  cases s with
  | techStack =>
      exact Workspace.guards_of_safe (TechStack.safe_run w₀.records_caring hspecs w₀.resolves_caring)
  | lowering =>
      exact Workspace.guards_of_safe (Lowering.safe_run w₀.records_caring w₀.declares_caring
        (Regime.forgets_tending hcare id) hspecs w₀.lowers_caring)
  | refresh => exact Workspace.guards_of_safe ((w₀.safe_sync_caring _).bind fun _ => .pure _)
  | indexing =>
      exact Workspace.guards_of_safe (Indexing.safe_run w₀.records_caring w₀.declares_caring
        (Regime.forgets_tending hcare id) hintent fun file => Regime.derives_tending hcare file id)
  | compilation => exact Compilation.guards_run hp hw₀ ha₀

/-- Stages that run in order leave a graph at rest at rest. -/
theorem Smooth.tended {ss : List Stage} {w w' : Workspace} (h : Smooth c w ss w')
    (hp : c.project.Found name w₀) (hw₀ : w₀.Sound) (ha₀ : w₀.tables.Arranged) (ht : Workspace.Tended w₀ w) : Workspace.Tended w₀ w' := by
  induction h with
  | nil => exact ht
  | @cons w _ _ s _ _ _ hrun _ _ ih =>
      have hafter := (guards_runStage hp hw₀ ha₀ s).after w ht
      rw [after_of_run hrun] at hafter
      exact ih hafter

theorem guards_outcomeOf {α : Type} {I : Workspace → Prop} {x : Op α} (hx : Guards I x) :
    Guards I (outcomeOf x) :=
  .tryCatch (by
    rw [map_eq_pure_bind]
    exact hx.bind fun _ => .pure _) fun _ => .pure _

section

variable {I : Workspace → Prop} (hc : ∀ s, Guards I (runStage c s))
include hc

theorem guards_advance (limit : Int) (p : Plan) : Guards I (advance limit c p) := by
  refine (guards_outcomeOf (.of_reader (Work.reader_failIfCancelled _))).bind fun r => ?_
  split
  · exact .pure _
  · split
    · exact .pure _
    · refine (guards_outcomeOf (hc _)).bind fun r => ?_
      split
      · exact .pure _
      · exact .pure _

/-- The stages of a plan leave what every stage leaves. -/
theorem guards_advanceAll (settings : Settings) (left : Nat) :
    ∀ p, Guards I (advanceAll settings c left p) := by
  induction left with
  | zero => exact fun _ => .throw _
  | succ left ih =>
      refine fun p => (guards_advance hc ..).bind fun r => ?_
      split
      · exact .throw _
      · exact ih _
      · exact .ite (.throw _) (.pure _)

end

/-- A build leaves a graph at rest at rest, and the anchors with what they hold. -/
theorem tended_run {w : Workspace} (hw : w.AtRest) (hp : w.Proper) (ha : w.tables.Arranged)
    (s : Services) (name : String) (plan : Plan) : Workspace.Tended w ((run s name plan).after w) := by
  have hstart := (Workspace.guards_of_safe (safe_start w.declares_caring s name)).after w (.refl hw hp ha)
  rw [run]
  cases hrun : (start s name).run w with
  | error e w' =>
      rw [after_bind_error hrun]
      rwa [Op.after, hrun] at hstart
  | ok c w' =>
      rw [after_bind_ok hrun]
      rw [after_of_run hrun] at hstart
      have hfound := (start_eq_ok hw.sound hrun).1
      have hstages := guards_runStage hfound hw.sound ha
      exact ((guards_advanceAll hstages ..).bind fun _ => .pure _).after w' hstart

end Build

/-! ## Setting up projects -/

namespace Project

open Graph

variable {w : Workspace} {name : String} {path : Path}

/-- The nodes of a project are made in a transaction, which changes no file before it ends. -/
theorem nodes_eq (hname : name ≠ "") (hpath : ∀ n ∈ path.names, Path.IsName n) :
    ∃ x : Op Project, nodes name path = Op.transaction x ∧ Inward x ∧ ∀ w : Workspace, w.graph.depth ≠ 0 →
      Ends w x (fun p w' => Completed w.tables w.graph.instanceId name path p w'.tables)
        fun w' => w'.tables = w.tables ∧ Elsewhere name path w := by
  refine ⟨_, rfl, ?_, fun _ hd => ends_nodes_body hd hname hpath⟩
  refine (inward_getOrCreate ..).bind fun node => (Inward.of_reader (reader_path? _)).bind fun known => ?_
  refine .ite ((Inward.throw _).bind fun _ => ?_) ?_
  all_goals
    exact (inward_getOrCreate ..).bind fun _ => (inward_getOrCreate ..).bind fun _ =>
      (inward_getOrCreate ..).bind fun _ => (inward_link ..).bind fun _ => .pure _

/-- The nodes of the first project of a graph are made, and the document is written. -/
theorem nodes_of_fresh (h : w.Fresh) (hname : name ≠ "") (hpath : ∀ n ∈ path.names, Path.IsName n) :
    ∃ p w', (nodes name path).run w = .ok p w' ∧ w'.AtRest := by
  have hw := h.kept.sound
  obtain ⟨x, hx, hinward, hends⟩ := nodes_eq hname hpath
  have hopen : (w.atDepth (w.graph.depth + 1)).Sound := ⟨hw.wellFormed, hw.spent, hw.exact⟩
  have hbody := hends (w.atDepth (w.graph.depth + 1)) (Nat.succ_ne_zero _) hopen
  have hfiles := hinward.after (w.atDepth (w.graph.depth + 1)) (Nat.succ_ne_zero _)
  cases hrun : x.run (w.atDepth (w.graph.depth + 1)) with
  | error e w₁ =>
      rw [hrun] at hbody
      obtain ⟨-, -, n, hn, -⟩ := hbody
      change w.tables.findNode? _ = _ at hn
      rw [h.tables] at hn
      cases hn
  | ok p w₁ =>
      rw [after_of_run hrun] at hfiles
      obtain ⟨w', hnodes⟩ := transaction_run hrun fun _ => h.writable.congr hfiles.1 hfiles.2.1
      refine ⟨p, w', hx ▸ hnodes, ?_⟩
      have hway := ((safe_nodes (R := w.clearing) (fun _ _ => trivial) (fun _ => trivial) name path).runs w
        trivial).way hw
      rw [hx, after_of_run hnodes] at hway
      have hkept := h.kept.way hway
      have hdepth : w'.graph.depth = 0 := hway.depth.trans h.closed
      have hunsaved := unsaved_of_transaction hnodes hdepth
      have hcompleted := ends_nodes (w := w) hname hpath hw
      rw [hx, hnodes] at hcompleted
      have hcompleted := hcompleted.2
      rw [← hway.reach.instanceId_eq] at hcompleted
      refine { unsaved := hunsaved, bytes := (hkept.inStep hunsaved).resolve_right fun hempty => ?_,
               sound := hkept.sound, named := hkept.named, rooted := hkept.rooted, closed := hdepth }
      have hstored := (hcompleted.stands hw.wellFormed hkept.sound).stored hkept.sound
      rw [hempty.2] at hstored
      cases hstored

/-- A project is set up in a graph, which is at rest afterwards unless it is still empty. -/
theorem setup_rest (h : w.AtRest ∨ w.Fresh) (hwd : ∀ n ∈ w.files.workingDirectory.names, Path.IsName n)
    (name s : String) : ((setup name (.ofText s)).after w).AtRest ∨
      (setup name (.ofText s)).after w = w ∧ w.Fresh := by
  rcases h with h | h
  · exact .inl (h.way (((safe_setup (R := w.clearing) (fun _ _ => trivial) (fun _ => trivial) ..).runs w
      trivial).way h.sound))
  · cases hname : Text.hasInk name with
    | false => exact .inr ⟨by rw [Op.after, setup_blankName hname], h⟩
    | true =>
        obtain ⟨p, w', hnodes, hrest⟩ :=
          nodes_of_fresh h (ne_empty_of_hasInk hname) (isName_resolve hwd s)
        have hdirs : Safe w'.clearing (makeDirectories p.roots) := by
          unfold makeDirectories
          exact .bind (.forIn fun _ _ => .bind (.of_reader (reader_pathOf _)) fun _ =>
            .once (safe_makeDirs _)) fun _ => .pure _
        left
        rw [Op.after, setup_run hname, bind_ok hnodes]
        exact hrest.way (((hdirs.bind fun _ => .pure p).runs w' trivial).way hrest.sound)

/-- A project that is set up leaves the anchors, and its own are arranged. -/
theorem setup_holds (hw : w.Sound) (ha : w.tables.Arranged)
    (hwd : ∀ n ∈ w.files.workingDirectory.names, Path.IsName n) (name s : String) :
    ((setup name (.ofText s)).after w).tables.Arranged ∧
      w.tables.Holds ((setup name (.ofText s)).after w).tables := by
  cases hname : Text.hasInk name with
  | false =>
      rw [Op.after, setup_blankName hname]
      exact ⟨ha, .refl _⟩
  | true =>
      have hend := ends_setup (s := s) hname hwd hw
      unfold Op.after
      cases hrun : (setup name (.ofText s)).run w with
      | ok p w' =>
          rw [hrun] at hend
          exact hend.2.1.holds hw.wellFormed ha
      | error e w' =>
          rw [hrun] at hend
          rcases hend.2 with ⟨htables, -⟩ | ⟨p, hp⟩
          · dsimp only
            rw [htables]
            exact ⟨ha, .refl _⟩
          · exact hp.holds hw.wellFormed ha

end Project

end IntentBuild
