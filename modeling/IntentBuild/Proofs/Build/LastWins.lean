import IntentBuild.Proofs.Build.Lowered
import IntentBuild.Proofs.Build.Readiness

/-!
# The last specification wins

Two specifications may name the same intent file, so the intent tree does not hold all that their results
say.  What holds after a build that completes is this: every specification has its entries in the
graph, and the last entry for a file is what the intent tree holds, unless a later specification has one
for the same file (`Build.holds_last`).

The stage of lowering leaves this (`Lowering.run_eq_ok`), and all other stages keep it, since they write
elsewhere and give nodes of this type no other content (`Lowering.Left.stage`).
-/

namespace IntentBuild

open Op

namespace Lowering

variable {c : BuildContext} {R : Path} {s : Stage} {r : StageReport} {w w' : Workspace}

/-- Only lowering gives its derived data other entries. -/
theorem safe_runStage_keeping (hw : w.Sound) (hs : s ≠ .lowering) :
    Safe (keeping w fun k => k.type = .loweringData) (Build.runStage c s) := by
  have hK : (keeping w fun k => k.type = .loweringData).Records :=
    Regime.records_sheltering undeclared_listed
  have hD : (keeping w fun k => k.type = .loweringData).Declares :=
    Regime.declares_sheltering undeclared_listed
  have derives (file : Node) {type : NodeType} (ht : type ≠ .loweringData) :
      (keeping w fun k => k.type = .loweringData).Derives file type :=
    Regime.derives_sheltering fun _ hk h => absurd (h.symm.trans hk) ht
  have text {old new : Node} (hm : new.members = old.members) :
      (keeping w fun k => k.type = .loweringData).admits (.content old new) :=
    Regime.sheltering_content fun _ => by rw [listed, listed, hm]
  cases s with
  | techStack =>
      exact TechStack.safe_run hK (Regime.places_sheltering _ _).shows fun file =>
        { toDeclares := hD
          toDerives := derives file (by decide)
          summary := fun _ _ => ⟨trivial, fun _ _ => trivial⟩ }
  | lowering => exact absurd rfl hs
  | refresh =>
      refine (DepsFile.safe_sync hD (fun old new ht _ => ?_) fun _ _ =>
        ⟨⟨trivial, fun _ _ => trivial⟩, trivial, fun _ _ => trivial⟩).bind fun _ => .pure _
      refine Regime.sheltering_content fun hk => ?_
      cases ht.symm.trans hk
  | indexing =>
      exact Indexing.safe_run hK hD (Regime.forgets_sheltering (w.shelter_clear hw _) (w.lacks_clear _))
        (Regime.places_sheltering _ _).shows fun file => derives file (by decide)
  | compilation =>
      exact Compilation.safe_run hK hD (Regime.places_sheltering _ _).shows fun file _ _ =>
        { toDeclares := hD
          toDerives := derives file (by decide)
          places := Regime.places_sheltering _ _
          source := fun _ _ => ⟨trivial, fun _ _ => trivial⟩
          output := fun _ _ _ _ _ hm => text hm
          input := fun _ _ _ _ hm => text hm }

/-- Where lowering is done, the other stages keep what it left. -/
theorem Left.stage {rs : List (List String × List IntentEntry)}
    (h : Left c.project (R.child "intent") rs w) (hc : c.project.Placed R) (hready : Build.Ready c w)
    (hs : s ≠ .lowering) (hrun : (Build.runStage c s).run w = .ok r w') :
    Left c.project (R.child "intent") rs w' := by
  have hw := hready.sound
  have hkept := (((safe_runStage_keeping (c := c) hw hs).runs w (.refl w _)).ok hw hrun).1
  have harea : ¬ s.Area "intent" := by
    cases s <;> simp_all [Stage.Area]
  have hclears := Build.clears_runStage hc hw hready.proper.files hrun harea
  refine ⟨fun q hq => (h.data q hq).reach hw hready.specs (fun _ _ => rfl) hkept, h.checked,
    fun e he => ?_⟩
  obtain ⟨q, hq, hmem⟩ := List.mem_flatMap.mp he.mem
  have hchecked := h.checked q hq e hmem
  refine (h.held e he).reach hchecked (hclears.mono fun ev hev => ?_)
  rw [key_entry hchecked, Path.child_name R (by decide),
    w.files.key_below R (by decide), List.append_assoc]
  exact hev (row e)

end Lowering

namespace Build

variable {c : BuildContext} {R : Path} {s : Stage} {r : StageReport} {w w' : Workspace}

/-- No stage changes the rows of the specifications. -/
theorem specRows_runStage (hc : c.project.Placed R) (hready : Ready c w)
    (hrun : (runStage c s).run w = .ok r w') :
    Lowering.specRows w'.files (R.child "specs") = Lowering.specRows w.files (R.child "specs") := by
  have harea : ¬ s.Area "specs" := by
    cases s <;> simp [Stage.Area]
  rw [Lowering.specRows, Lowering.specRows, Path.child_name R (by decide),
    filesBelow_runStage hc hready.sound hready.proper.files hrun harea (by decide)]

variable {services : Services} {name : String} {p : Project} {summary : BuildSummary}

/-- After a build that completes, one unit at a time, there is what lowering has left. -/
theorem left_of_run (hone : services.settings.maxConcurrency ≤ 1) (hw : w.Sound) (ht : w.Proper)
    (hp : p.Found name w) (hR : p.Placed R) (h : (run services name .default).run w = .ok summary w') :
    ∃ rs, rs.map Prod.fst = Lowering.specRows w'.files (R.child "specs") ∧
      Lowering.Left p (R.child "intent") rs w' := by
  obtain ⟨c, v, w₁, w₂, w₃, w₄, w₅, hfound, hlimit, hready, hseq⟩ := ready_of_run hw ht h
  obtain rfl := hp.unique hfound
  obtain ⟨_, htechStack⟩ := hseq.techStack
  obtain ⟨_, hlowering⟩ := hseq.lowering
  have hready₁ := hready.stage htechStack
  have hspecs : (R.child "specs").names ≠ [] := R.child_ne_nil (by decide)
  obtain ⟨-, rs, hrows, hleft⟩ := Lowering.run_eq_ok (by omega) hR.specs hspecs hR.intent
    hready₁.sound hready₁.proper.files hready₁.specs hlowering
  have hready₂ := hready₁.stage hlowering
  rw [← specRows_runStage hR hready₁ hlowering] at hrows
  have rest {s : Stage} {r : StageReport} {v v' : Workspace}
      (hrun : (runStage c s).run v = .ok r v') (hs : s ≠ .lowering)
      (hv : Ready c v ∧ rs.map Prod.fst = Lowering.specRows v.files (R.child "specs") ∧
        Lowering.Left c.project (R.child "intent") rs v) :
      Ready c v' ∧ rs.map Prod.fst = Lowering.specRows v'.files (R.child "specs") ∧
        Lowering.Left c.project (R.child "intent") rs v' :=
    ⟨hv.1.stage hrun, by rw [specRows_runStage hR hv.1 hrun, hv.2.1],
      hv.2.2.stage hR hv.1 hs hrun⟩
  obtain ⟨_, hfirst⟩ := hseq.firstRefresh
  obtain ⟨_, hindexing⟩ := hseq.indexing
  obtain ⟨_, hcompilation⟩ := hseq.compilation
  obtain ⟨_, hlast⟩ := hseq.lastRefresh
  have hindexed := rest hindexing (by decide) (rest hfirst (by decide) ⟨hready₂, hrows, hleft⟩)
  exact ⟨rs, (rest hlast (by decide) (rest hcompilation (by decide) hindexed)).2⟩

/-! ## Two specifications for one file -/

/-- Services whose model first deletes an intent file and then sets it. -/
def rivals : Services where
  settings := {}
  tools := { byTool := [("specs-to-intent", "m"), ("indexer", "m"), ("compiler", "m")], timeout := 120 }
  endpoint
    | [], _ => ⟨.texts ["\x7b\"intentFiles\":[\x7b\"projectNo\":1," ++
        "\"relativePath\":\"x.md\",\"fileDelta\":\"delete\"\x7d]\x7d"], false⟩
    | _ :: _, _ => ⟨.texts ["\x7b\"intentFiles\":[\x7b\"projectNo\":1," ++
        "\"relativePath\":\"x.md\",\"content\":\"\"\x7d]\x7d"], false⟩

/-- A new project with two specifications. -/
@[irreducible]
def contested : Workspace :=
  (writeIfChanged (.ofText "/work/demo/specs/b.md") "b\n").after
    ((writeIfChanged (.ofText "/work/demo/specs/a.md") "a\n").after Project.sample)

/-- A file that is written leaves the graph alone. -/
theorem tables_written (hw : w.Sound) (ht : w.Proper) (full text : String) :
    ((writeIfChanged (.ofText full) text).after w).Sound ∧
      ((writeIfChanged (.ofText full) text).after w).Proper ∧
      ((writeIfChanged (.ofText full) text).after w).tables = w.tables ∧
      ((writeIfChanged (.ofText full) text).after w).graph.instanceId = w.graph.instanceId := by
  have hproper := reach_written hw full text
  have hwrites : Reach Event.Writes w ((writeIfChanged (.ofText full) text).after w) :=
    ((safe_writeIfChanged (R := .only Event.Writes) trivial).runs w trivial).after hw
  refine ⟨hproper.sound hw, hproper.proper ht, ?_, hwrites.instanceId_eq⟩
  refine Lasts.reach (P := fun v => v.tables = w.tables) (fun he _ hs ih => ?_) hw hwrites rfl
  refine Eq.trans ?_ ih
  cases hs <;> first | rfl | (rcases he with he | he <;> exact he.elim)

/-- A file that is written leaves the project of a name in place. -/
theorem found_written (hp : p.Found name w) (hw : w.Sound) (ht : w.Proper) (full text : String) :
    ((writeIfChanged (.ofText full) text).after w).Sound ∧
      ((writeIfChanged (.ofText full) text).after w).Proper ∧
      p.Found name ((writeIfChanged (.ofText full) text).after w) := by
  obtain ⟨hw', ht', htables, hinstance⟩ := tables_written hw ht full text
  obtain ⟨h₁, h₂, h₃, h₄⟩ := hp
  rw [← htables, ← hinstance] at h₁ h₂ h₃ h₄
  exact ⟨hw', ht', h₁, h₂, h₃, h₄⟩

/-- The project with two specifications is in place. -/
theorem found_contested : ∃ p : Project, p.Found "demo" contested ∧
    p.Placed (.ofText "/work/demo") ∧ contested.Sound ∧ contested.Proper := by
  obtain ⟨p, hfound, hplaced⟩ := Project.found_sample
  obtain ⟨hw, ht, hfound⟩ := found_written hfound Project.sound_sample Project.proper_sample
    "/work/demo/specs/a.md" "a\n"
  obtain ⟨hw, ht, hfound⟩ := found_written hfound hw ht "/work/demo/specs/b.md" "b\n"
  unfold contested
  exact ⟨p, hfound, hplaced, hw, ht⟩

/-- The value has the members of an entry. -/
def spellsEntry (e : IntentEntry) : Json → Bool
  | .obj [(k₁, .int n), (k₂, .str path), (k₃, content), (k₄, .str change)] =>
      [k₁, k₂, k₃, k₄] == ["projectNo", "relativePath", "content", "fileDelta"] &&
      n == e.projectNo && path == e.relativePath && change == e.change.text &&
      match content, e.content with
      | .null, none => true
      | .str text, some text' => text == text'
      | _, _ => false
  | _ => false

theorem eq_toJson_of_spellsEntry {e : IntentEntry} {j : Json} (h : spellsEntry e j = true) :
    j = e.toJson := by
  unfold spellsEntry at h
  split at h
  · simp only [Bool.and_eq_true, beq_iff_eq, List.cons.injEq, and_true] at h
    obtain ⟨⟨⟨⟨⟨rfl, rfl, rfl, rfl⟩, rfl⟩, rfl⟩, rfl⟩, hcontent⟩ := h
    rw [IntentEntry.toJson]
    split at hcontent
    · rename_i hnone
      rw [hnone]
      rfl
    · rename_i hsome
      rw [hsome, beq_iff_eq.mp hcontent]
      rfl
    · cases hcontent
  · cases h

/-- The derived data of the specification with a name at the root lists one entry. -/
def listsEntry (w : Workspace) (p : Project) (name : String) (e : IntentEntry) : Bool :=
  match w.tables.findNode? ⟨some p.specs.id, w.graph.instanceId, .specFile, name⟩ with
  | none => false
  | some file =>
      match w.tables.findNode? ⟨some file.id, w.graph.instanceId, .loweringData, Lowering.dataName⟩ with
      | none => false
      | some d =>
          match Lowering.listed d with
          | some (.arr [j]) => spellsEntry e j
          | _ => false

theorem data_of_listsEntry {e : IntentEntry} {file : String} (hw : w.Sound)
    (h : listsEntry w p file e = true) : Lowering.Data w p [file] [e] := by
  unfold listsEntry at h
  split at h
  · cases h
  rename_i n hn
  split at h
  · cases h
  rename_i d hd
  split at h
  · rename_i j hlisted
    refine ⟨n.id, .file ((Workspace.Keyed.findNode? hw).mpr ⟨n, hn, rfl⟩), d.id, d, ?_, ?_, ?_⟩
    · exact ((Tables.findNode?_eq_some hw.wellFormed).mp hd).1
    · exact ((Tables.findNode?_eq_some hw.wellFormed).mp hd).2
    · rw [hlisted, eq_toJson_of_spellsEntry h]
      rfl
  · cases h

/-- The entry of the first specification. -/
def deletion : IntentEntry := ⟨1, "x.md", none, .delete⟩

/-- The entry of the second specification. -/
def creation : IntentEntry := ⟨1, "x.md", some "", .set⟩

/-- The file of both entries. -/
def shared : Path := .ofText "/work/demo/intent/x.md"

theorem path_shared : ((Path.ofText "/work/demo").child "intent").child "x.md" = shared := by
  decide +kernel

theorem not_holds_deletion (h : w.files.isFile shared = true) :
    ¬ Lowering.Holds w ((Path.ofText "/work/demo").child "intent") deletion := by
  simp [Lowering.Holds, deletion, path_shared, h]

theorem not_holds_creation (h : w.files.isFile shared = false) :
    ¬ Lowering.Holds w ((Path.ofText "/work/demo").child "intent") creation := by
  simp [Lowering.Holds, creation, path_shared, h]

/-- A plan that leaves out the specifications. -/
def compiles : Plan := { stages := [.indexing, .compilation] }

/-- A build leaves the entry of the first specification, and the file of the second one.  Then the file
is removed, and a build that leaves out the specifications leaves it so. -/
def disagrees (w : Workspace) : Bool :=
  (run rivals "demo" .default).gives w fun _ w' => w'.files.isFile shared &&
    (run rivals "demo" compiles).gives { w' with files := w'.files.removeFile shared }
      fun _ w'' => !w''.files.isFile shared && (Project.require "demo").gives w fun p _ =>
        listsEntry w' p "a.md" deletion && listsEntry w'' p "b.md" creation

/-- The same model, for two units at a time.  The first one begins, and the second one goes on until it has
deleted the file. -/
def racing : Services :=
  { rivals with
    settings := { maxConcurrency := 2 }
    schedule := fun _ => .unit 0 :: List.replicate 6 (.unit 1) }

/-- A build of two units at a time leaves the entry of the second specification, and the file of the first
one. -/
def overtakes (w : Workspace) : Bool :=
  (run racing "demo" .default).gives w fun _ w' => w'.files.isFile shared &&
    (Project.require "demo").gives w fun p _ => listsEntry w' p "b.md" deletion

theorem sound_run {s : Services} {plan : Plan} (hw : w.Sound)
    (h : (run s name plan).run w = .ok summary w') : w'.Sound := by
  have hany : Runs Event.Any w (run s name plan) fun _ _ => True :=
    runs_run Regime.declares_any trivial fun _ => ⟨(Regime.builds_any _).carries,
      DepsFile.safe_sync Regime.declares_any (fun _ _ _ _ => trivial) fun _ _ => ⟨trivial, trivial⟩⟩
  exact (hany.ok hw h).1.sound hw

theorem apart_of_disagrees (hw : w.Sound) (hp : p.Found "demo" w) (h : disagrees w = true) :
    ∃ summary w', (run rivals "demo" .default).run w = .ok summary w' ∧
      (Lowering.Data w' p ["a.md"] [deletion] ∧ w'.files.isFile shared = true) ∧
      ∃ summary' w'', (run rivals "demo" compiles).run
          { w' with files := w'.files.removeFile shared } = .ok summary' w'' ∧
        Lowering.Data w'' p ["b.md"] [creation] ∧ w''.files.isFile shared = false := by
  obtain ⟨summary, w', hrun, htest⟩ := gives_eq_true.mp h
  obtain ⟨hfile, htest⟩ := Bool.and_eq_true_iff.mp htest
  obtain ⟨summary', w'', hcompiles, htest⟩ := gives_eq_true.mp htest
  obtain ⟨hgone, htest⟩ := Bool.and_eq_true_iff.mp htest
  obtain ⟨q, _, hrequire, htest⟩ := gives_eq_true.mp htest
  obtain ⟨hdeletes, hcreates⟩ := Bool.and_eq_true_iff.mp htest
  obtain ⟨-, hq⟩ := Project.require_eq_ok hrequire
  obtain rfl := hp.unique hq
  have hw' := sound_run hw hrun
  have hremoved : Workspace.Sound { w' with files := w'.files.removeFile shared } :=
    ⟨hw'.wellFormed, hw'.spent, hw'.exact⟩
  exact ⟨summary, w', hrun, ⟨data_of_listsEntry hw' hdeletes, hfile⟩, summary', w'', hcompiles,
    data_of_listsEntry (sound_run hremoved hcompiles) hcreates, by simpa using hgone⟩

theorem ahead_of_overtakes (hw : w.Sound) (hp : p.Found "demo" w) (h : overtakes w = true) :
    ∃ summary w', (run racing "demo" .default).run w = .ok summary w' ∧
      Lowering.Data w' p ["b.md"] [deletion] ∧ w'.files.isFile shared = true := by
  obtain ⟨summary, w', hrun, htest⟩ := gives_eq_true.mp h
  obtain ⟨hfile, htest⟩ := Bool.and_eq_true_iff.mp htest
  obtain ⟨q, _, hrequire, hdeletes⟩ := gives_eq_true.mp htest
  obtain ⟨-, hq⟩ := Project.require_eq_ok hrequire
  obtain rfl := hp.unique hq
  exact ⟨summary, w', hrun, data_of_listsEntry (sound_run hw hrun) hdeletes, hfile⟩

/-- Both builds do so in the project with two specifications. -/
theorem disagrees_overtakes : disagrees contested = true ∧ overtakes contested = true := by
  decide +kernel

/-! ## The last entry for a file -/

/-- After a build that completes, one unit at a time, the graph has the entries of every specification,
and the intent tree holds the last entry of a specification for a file, unless a later specification has
one for the same file. -/
theorem holds_last (hone : services.settings.maxConcurrency ≤ 1) (hw : w.Sound) (ht : w.Proper)
    (hp : p.Found name w) (hR : p.Placed R) (h : (run services name .default).run w = .ok summary w') :
    ∃ rs, rs.map Prod.fst = Lowering.specRows w'.files (R.child "specs") ∧
      (∀ r ∈ rs, Lowering.Data w' p r.1 r.2) ∧
      ∀ pre names es post, rs = pre ++ (names, es) :: post → ∀ e, Lowering.LastIn es e →
        (∀ r ∈ post, ∀ e' ∈ r.2, Lowering.row e' ≠ Lowering.row e) →
          Lowering.Holds w' (R.child "intent") e := by
  obtain ⟨rs, hrows, hleft⟩ := left_of_run hone hw ht hp hR h
  refine ⟨rs, hrows, hleft.data, fun pre names es post hrs e he hpost => hleft.held e ?_⟩
  obtain ⟨front, back, rfl, hback⟩ := he
  refine ⟨pre.flatMap Prod.snd ++ front, back ++ post.flatMap Prod.snd, by simp [hrs], fun e' he' => ?_⟩
  rcases List.mem_append.mp he' with he' | he'
  · exact hback e' he'
  · obtain ⟨r, hr, hmem⟩ := List.mem_flatMap.mp he'
    exact hpost r hr e' hmem

/-- The build of the project with two specifications leaves the entries of both, and the last ones for
their rows in the intent tree. -/
theorem holds_last_contested : ∃ (p : Project) (summary : BuildSummary) (w' : Workspace)
    (rs : List (List String × List IntentEntry)),
    (run rivals "demo" .default).run contested = .ok summary w' ∧
      rs.map Prod.fst = Lowering.specRows w'.files ((Path.ofText "/work/demo").child "specs") ∧
      (∀ r ∈ rs, Lowering.Data w' p r.1 r.2) ∧
      ∀ pre names es post, rs = pre ++ (names, es) :: post → ∀ e, Lowering.LastIn es e →
        (∀ r ∈ post, ∀ e' ∈ r.2, Lowering.row e' ≠ Lowering.row e) →
          Lowering.Holds w' ((Path.ofText "/work/demo").child "intent") e := by
  obtain ⟨p, hfound, hplaced, hw, ht⟩ := found_contested
  obtain ⟨summary, w', hrun, -⟩ := apart_of_disagrees hw hfound disagrees_overtakes.1
  obtain ⟨rs, hrows, hdata, hheld⟩ := holds_last (by decide) hw ht hfound hplaced hrun
  exact ⟨p, summary, w', rs, hrun, hrows, hdata, hheld⟩

/-- The first specification has an entry that deletes the file that the second one sets, and after a
build that completes the file is there.  Of two units at a time the second one may come first, and then the
file is there though the last specification deletes it.  And a build that leaves out the specifications
does not bring back a file that was removed. -/
theorem deleted_by_one_set_by_other : ∃ p summary w',
    p.Found "demo" contested ∧ p.Placed (.ofText "/work/demo") ∧
      (run rivals "demo" .default).run contested = .ok summary w' ∧
      (Lowering.Data w' p ["a.md"] [deletion] ∧
        ¬ Lowering.Holds w' ((Path.ofText "/work/demo").child "intent") deletion) ∧
      (∃ summary' w'', (run racing "demo" .default).run contested = .ok summary' w'' ∧
        Lowering.Data w'' p ["b.md"] [deletion] ∧
        ¬ Lowering.Holds w'' ((Path.ofText "/work/demo").child "intent") deletion) ∧
      ∃ summary' w'', (run rivals "demo" compiles).run
          { w' with files := w'.files.removeFile shared } = .ok summary' w'' ∧
        Lowering.Data w'' p ["b.md"] [creation] ∧
        ¬ Lowering.Holds w'' ((Path.ofText "/work/demo").child "intent") creation := by
  obtain ⟨p, hfound, hplaced, hw, -⟩ := found_contested
  obtain ⟨summary, w', hrun, ⟨hdeletes, hfile⟩, summary', w'', hcompiles, hcreates, hgone⟩ :=
    apart_of_disagrees hw hfound disagrees_overtakes.1
  obtain ⟨ahead, v, hahead, hdata, hthere⟩ := ahead_of_overtakes hw hfound disagrees_overtakes.2
  exact ⟨p, summary, w', hfound, hplaced, hrun, ⟨hdeletes, not_holds_deletion hfile⟩,
    ⟨ahead, v, hahead, hdata, not_holds_deletion hthere⟩, summary', w'', hcompiles, hcreates,
    not_holds_creation hgone⟩

end Build

end IntentBuild
