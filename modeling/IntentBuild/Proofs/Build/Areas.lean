import IntentBuild.Proofs.Build.Containment

/-!
# Where the stages write

In the directory of a project every stage has an area of its own (`Stage.Area`), and writes and removes
files nowhere else (`Build.reach_runStage`).  So a row of names outside of the area is clear of all that
the stage writes and removes (`Build.clears_runStage`).  All that a
stage writes has proper names
(`Build.proper_runStage`).
-/

namespace IntentBuild

open Op

/-! ## Classes that leave out files only -/

theorem Event.clears_of_not_writes {e : Event} (he : ¬ e.Writes) {d : Path} {k : List String} :
    e.Clears d k := by
  cases e with
  | write | remove => exact absurd trivial he
  | _ => trivial

section

variable {A : Event → Prop} (hA : ∀ e : Event, ¬ e.Writes → A e)
include hA

/-- A class that leaves out changes of files only admits what declaring dependencies changes. -/
theorem Regime.declares_only : (Regime.only A).Declares :=
  ⟨fun _ _ _ => hA _ id, fun _ _ _ => hA _ id, fun _ => hA _ id, fun _ _ => hA _ id⟩

theorem Regime.records_only : (Regime.only A).Records :=
  ⟨⟨fun _ _ _ _ _ => hA _ id⟩, hA _ id, fun _ => hA _ id, fun _ => hA _ id⟩

theorem Regime.forgets_only (type : NodeType) : (Regime.only A).Forgets type :=
  fun _ n hI _ _ => (Graph.safe_cascadeDelete (fun _ => hA _ id) (fun _ => hA _ id)
    (fun _ => hA _ id) n true).runs _ hI

theorem Regime.places_only (root : Node) (kind : Graph.FileKind) : (Regime.only A).Places root kind :=
  fun _ _ _ _ _ => hA _ id

theorem Regime.derives_only (file : Node) (type : NodeType) : (Regime.only A).Derives file type :=
  ⟨fun _ _ _ _ => hA _ id, fun _ _ _ _ => hA _ id⟩

theorem Regime.resolves_only {c : BuildContext} (file : Node)
    (h : ∀ {P}, c.project.node.pathEntry = .path P →
      ∀ text, A (.write ((P.child ".intentcode").child "tech-stack.json") text)) :
    (Regime.only A).Resolves c file where
  toDeclares := declares_only hA
  toDerives := derives_only hA file _
  summary := h

theorem Regime.lowers_only {c : BuildContext} (file : Node)
    (h : ∀ {e}, Lowering.checkEntry e = .ok () → (Regime.only A).Enters c e) :
    (Regime.only A).Lowers c file where
  toDeclares := declares_only hA
  toDerives := derives_only hA file _
  places := places_only hA _ _
  forgets := forgets_only hA _
  entry := h

theorem Regime.compiles_only {c : BuildContext} (file : Node) {relative : String}
    (h : ∀ {P}, c.project.source.pathEntry = .path P →
      ∀ text, A (.write (P.child (Path.withoutIntentSuffix relative)) text)) :
    (Regime.only A).Compiles c file relative where
  toDeclares := declares_only hA
  toDerives := derives_only hA file _
  places := places_only hA _ _
  source := h
  output _ _ _ _ _ _ := hA _ id
  input _ _ _ _ _ := hA _ id

end

/-! ## Areas -/

/-- The names in the directory of a project below which a stage writes and removes files. -/
def Stage.Area : Stage → String → Prop
  | .techStack, a => a = ".intentcode"
  | .lowering, a => a = "intent"
  | .refresh, a => a = ".intentcode" ∨ a = "package.json"
  | .indexing, _ => False
  | .compilation, a => a = "src"

/-- A file that the change writes or removes lies below a directory, as seen from the working directory,
at a row of names that begins with one of some names. -/
def Event.InArea (d P : Path) (area : String → Prop) : Event → Prop
  | .write p _ | .remove p =>
      ∃ a ns, (p.resolve d).names = (P.resolve d).names ++ a :: ns ∧ area a
  | _ => True

namespace Build

variable {c : BuildContext} {P : Path} {s : Stage} {r : StageReport} {w w' : Workspace}

theorem inArea_of_not_writes {d : Path} {area : String → Prop} {e : Event} (he : ¬ e.Writes) :
    e.InArea d P area := by
  cases e with
  | write | remove => exact absurd trivial he
  | _ => trivial

/-- What lies below a directory of the project is in its area. -/
theorem inArea_of_inside {root : Node} {a : String} {t : FileTree}
    (hroot : root.pathEntry = .path (P.below [a])) (ha : a ≠ "..") {e : Event} (he : e.Inside root) :
    e.InArea t.workingDirectory P (· = a) := by
  have inside {p : Path} (hp : Graph.Contains root p) :
      ∃ b ns, (p.resolve t.workingDirectory).names = (P.resolve t.workingDirectory).names ++ b :: ns ∧
        b = a := by
    obtain ⟨Q, names, hQ, rfl, -, hnames⟩ := hp
    cases hroot.symm.trans hQ
    refine ⟨a, names, ?_, rfl⟩
    rw [Path.below_below]
    exact t.key_below P (List.forall_mem_cons.mpr ⟨ha, fun n hn => (hnames n hn).2⟩)
  cases e with
  | write | remove => exact inside he
  | _ => trivial

/-- Every stage writes and removes files in its area only. -/
theorem reach_runStage (hc : c.project.Placed P) (hw : w.Sound) (ht : w.files.Proper) (s : Stage) :
    Reach (Event.InArea w.files.workingDirectory P s.Area) w ((runStage c s).after w) := by
  have hA (e : Event) : ¬ e.Writes → e.InArea w.files.workingDirectory P s.Area :=
    inArea_of_not_writes
  have hintent : c.project.intent.pathEntry = .path (P.below ["intent"]) := by
    rw [hc.intent, Path.child_name P (by decide)]
  have hsource : c.project.source.pathEntry = .path (P.below ["src"]) := by
    rw [hc.source, Path.child_name P (by decide)]
  have hdirectory : (P.child ".intentcode") = P.below [".intentcode"] :=
    Path.child_name P (by decide)
  have here {p : Path} {a : String} {l : List String} (hp : p = P.below (a :: l))
      (hup : ∀ n ∈ a :: l, n ≠ "..") (ha : s.Area a) :
      ∃ b ms, (p.resolve w.files.workingDirectory).names =
        (P.resolve w.files.workingDirectory).names ++ b :: ms ∧ s.Area b :=
    ⟨a, l, hp ▸ w.files.key_below P hup, ha⟩
  cases s with
  | techStack =>
      refine ((TechStack.safe_run (Regime.records_only hA) (Regime.places_only hA _ _).shows
        fun file => Regime.resolves_only hA file fun hP text => ?_).runs w trivial).after hw
      cases hc.node.symm.trans hP
      refine here (l := ["tech-stack.json"]) ?_ (by decide) rfl
      rw [hdirectory, Path.child_name _ (by decide), Path.below_below]
      rfl
  | lowering =>
      exact (Lowering.inside_run c hw).mono fun _ he => inArea_of_inside hintent (by decide) he
  | refresh =>
      refine (((DepsFile.safe_sync (R := .only (Event.InArea w.files.workingDirectory P
        Stage.refresh.Area)) (Regime.declares_only hA) (fun old new _ _ => hA (.content old new) id)
          fun {Q} hQ text => ?_).bind
          fun _ => .pure _).runs w trivial).after hw
      cases hc.node.symm.trans hQ
      have hfile : ((P.child ".intentcode").child "deps.json") =
          P.below [".intentcode", "deps.json"] := by
        rw [hdirectory, Path.child_name _ (by decide), Path.below_below]
        rfl
      have hparent : (P.below [".intentcode", "deps.json"]).parent.parent = P := by
        simp [Path.parent, Path.below]
      rw [hfile, hparent, Path.child_name P (by decide)]
      exact ⟨here rfl (by decide) (.inl rfl), here rfl (by decide) (.inr rfl)⟩
  | indexing =>
      exact ((Indexing.safe_run (Regime.records_only hA) (Regime.declares_only hA)
        (Regime.forgets_only hA _) (Regime.places_only hA _ _).shows fun file =>
          Regime.derives_only hA file _).runs w trivial).after hw
  | compilation =>
      have hne : (P.child "intent").names ≠ [] := P.child_ne_nil (by decide)
      exact (Compilation.inside_run hw ht hc.intent hne).mono fun _ he =>
        inArea_of_inside hsource (by decide) he.1

/-- A change in an area leaves files at all other rows alone. -/
theorem clears_of_inArea {d : Path} {area : String → Prop} {a : String} (ha : ¬ area a)
    (ns : List String) {e : Event} (he : e.InArea d P area) :
    e.Clears d ((P.resolve d).names ++ a :: ns) := by
  have clears {p : Path}
      (hp : ∃ b ms, (p.resolve d).names = (P.resolve d).names ++ b :: ms ∧ area b) :
      (p.resolve d).names ≠ (P.resolve d).names ++ a :: ns := by
    obtain ⟨b, ms, hp, hb⟩ := hp
    intro heq
    obtain ⟨rfl, -⟩ := List.cons.inj (List.append_cancel_left (hp.symm.trans heq))
    exact ha hb
  cases e with
  | write | remove => exact clears he
  | _ => trivial

/-- A stage neither writes nor removes a file outside of its area. -/
theorem clears_runStage (hc : c.project.Placed P) (hw : w.Sound) (ht : w.files.Proper)
    (h : (runStage c s).run w = .ok r w') {a : String} (ha : ¬ s.Area a) :
    Reach (fun e => ∀ ns, e.Clears w.files.workingDirectory (w.files.key P ++ a :: ns)) w w' := by
  have hreach := reach_runStage hc hw ht s
  rw [after_of_run h] at hreach
  exact hreach.mono fun e he ns => clears_of_inArea ha ns he

/-- The files that are listed below a directory outside of the area of a stage stay. -/
theorem filesBelow_runStage (hc : c.project.Placed P) (hw : w.Sound) (ht : w.files.Proper)
    (h : (runStage c s).run w = .ok r w') {a : String} (ha : ¬ s.Area a) (hup : a ≠ "..") :
    w'.files.filesBelow (P.below [a]) Stage.markdown = w.files.filesBelow (P.below [a]) Stage.markdown := by
  have hkey : w.files.key (P.below [a]) = w.files.key P ++ [a] :=
    w.files.key_below P fun n hn => List.mem_singleton.mp hn ▸ hup
  refine ((clears_runStage hc hw ht h ha).mono fun e he names _ => ?_).filesBelow_eq fun names hs =>
    w.documentKey_ne_of_shown hs _
  rw [hkey, List.append_assoc]
  exact he names

/-! ## Proper names -/

/-- What a text names inside a path with proper names has proper names. -/
theorem isName_child {Q : Path} (h : ∀ n ∈ Q.names, Path.IsName n) (s : String) :
    ∀ n ∈ (Q.child s).names, Path.IsName n := by
  intro n hn
  unfold Path.child Path.join at hn
  split at hn
  · exact Path.isName_of_mem_ofText hn
  · rcases List.mem_append.mp hn with hn | hn
    · exact h n hn
    · exact Path.isName_of_mem_ofText hn

theorem proper_of_not_writes {e : Event} (he : ¬ e.Writes) : e.Proper := by
  cases e with
  | write => exact absurd trivial he
  | _ => trivial

theorem carries_proper (c : BuildContext) : (Regime.only Event.Proper).Carries c := by
  have hA (e : Event) : ¬ e.Writes → e.Proper := proper_of_not_writes
  have below {n : Node} {P : Path} (hP : n.pathEntry = .path P) (s text : String) :
      Event.Proper (.write (P.child s) text) := isName_child (Graph.isName_of_pathEntry hP) s
  exact
    { toRecords := Regime.records_only hA
      toDeclares := Regime.declares_only hA
      forgetsSpecs := Regime.forgets_only hA _
      forgetsIntent := Regime.forgets_only hA _
      showsSpecs := (Regime.places_only hA _ _).shows
      showsIntent := (Regime.places_only hA _ _).shows
      resolves := fun file => Regime.resolves_only hA file fun hP _ =>
        isName_child (isName_child (Graph.isName_of_pathEntry hP) _) _
      lowers := fun file => Regime.lowers_only hA file fun _ _ hP => ⟨below hP _, trivial⟩
      derives := fun file => Regime.derives_only hA file _
      compiles := fun file _ _ => Regime.compiles_only hA file fun hP => below hP _ }

/-- The files of the dependencies have proper names. -/
theorem files_proper {project : Node} {P : Path} (hP : project.pathEntry = .path P) :
    (Regime.only Event.Proper).Files ((P.child ".intentcode").child "deps.json") := by
  intro text
  have hfile := isName_child (isName_child (Graph.isName_of_pathEntry hP) ".intentcode") "deps.json"
  exact ⟨hfile, isName_child (fun n hn => hfile n (List.dropLast_subset _ (List.dropLast_subset _ hn))) _⟩

/-- A refresh of the dependencies writes files of proper names. -/
theorem safe_sync_proper (project : Node) : Safe (.only Event.Proper) (DepsFile.sync project) :=
  DepsFile.safe_sync (Regime.declares_only fun _ => proper_of_not_writes) (fun _ _ _ _ => trivial)
    files_proper

/-- Every stage keeps the names of files proper. -/
theorem proper_runStage (hw : w.Sound) (hp : w.Proper) (s : Stage) :
    ((runStage c s).after w).Proper := by
  have hsafe := safe_stage (carries_proper c) (safe_sync_proper c.project.node) s
  exact ((hsafe.runs w trivial).after hw).proper hp

end Build

end IntentBuild
