import IntentBuild.Proofs.Build.Areas
import IntentBuild.Proofs.Build.Course
import IntentBuild.Proofs.Build.Freshness
import IntentBuild.Proofs.Build.Sheltering

/-!
# What every stage starts from

A project is ready for a stage when its roots are in the graph with nothing above them that a build
deletes, and the files have proper names (`Build.Ready`).  A build starts with a project that is ready
and every stage leaves it so, so each stage of the last default sequence of a build starts from there
(`Build.ready_of_run`).
-/

namespace IntentBuild

open Op

variable {c : BuildContext} {p : Project} {name : String} {w w' : Workspace}

/-- The roots of a project have nothing above them that a build deletes. -/
theorem Project.Found.bases (h : p.Found name w) (hw : w.Sound) :
    w.Base p.specs.id ∧ w.Base p.intent.id ∧ w.Base p.source.id := by
  have keyed {k : NodeKey} {n : Node} (hn : w.tables.findNode? k = some n) : w.Keyed n.id k :=
    (Workspace.Keyed.findNode? hw).mpr ⟨n, hn, rfl⟩
  have hnode : w.Clear .specFile p.node.id := .root (keyed h.node) rfl nofun
  have hnode' : w.Clear .intentFile p.node.id := .root (keyed h.node) rfl nofun
  exact ⟨⟨hnode.child (keyed h.specs) rfl nofun, hnode'.child (keyed h.specs) rfl nofun⟩,
    ⟨hnode.child (keyed h.intent) rfl nofun, hnode'.child (keyed h.intent) rfl nofun⟩,
    ⟨hnode.child (keyed h.source) rfl nofun, hnode'.child (keyed h.source) rfl nofun⟩⟩

namespace Build

/-- What a condition of every stage carries over a row of stages. -/
theorem Chained.keeps {rs : List StageRun} (h : Chained c w rs w') {I : Workspace → Prop}
    (hstep : ∀ {v v' s r}, I v → (runStage c s).run v = .ok r v' → I v') (hw : I w) : I w' := by
  induction h with
  | nil => exact hw
  | cons h _ ih => exact ih (hstep hw h)

/-- What every stage starts from. -/
structure Ready (c : BuildContext) (w : Workspace) : Prop where
  /-- The graph is in order. -/
  sound : w.Sound
  /-- Files have proper names. -/
  proper : w.Proper
  /-- The root of the specifications. -/
  specs : w.Base c.project.specs.id
  /-- The root of the intent files. -/
  intent : w.Base c.project.intent.id
  /-- The root of the source files. -/
  source : w.Base c.project.source.id

theorem Ready.stage (h : Ready c w) {s : Stage} {r : StageReport}
    (hrun : (runStage c s).run w = .ok r w') : Ready c w' := by
  obtain rfl := after_of_run hrun
  have hsafe := safe_stage (Regime.builds_any c).carries
    (DepsFile.safe_sync Regime.declares_any (fun _ _ _ _ => trivial) fun _ _ => ⟨trivial, trivial⟩) s
  exact
    { sound := ((hsafe.runs w trivial).after h.sound).sound h.sound
      proper := proper_runStage h.sound h.proper s
      specs := base_runStage h.sound h.specs s
      intent := base_runStage h.sound h.intent s
      source := base_runStage h.sound h.source s }

/-- A build starts with the project of the name, and it is ready. -/
theorem ready_of_start {s : Services} (hw : w.Sound) (hp : w.Proper)
    (h : (start s name).run w = .ok c w') : c.project.Found name w ∧ Ready c w' := by
  have hfound := (start_eq_ok hw h).1
  obtain ⟨hspecs, hintent, hsource⟩ := hfound.bases hw
  have base {i : String} (hi : w.Base i) : w'.Base i :=
    hi.reach hw (((safe_start (R := .sparing w (w.Above i)) Regime.declares_sparing s name).runs w
      (.refl w _)).ok hw h).1
  have hproper := ((safe_start (R := .only Event.Proper) (carries_proper c).toDeclares s name).runs w
    trivial).ok hw h
  exact ⟨hfound,
    { sound := hproper.1.sound hw
      proper := hproper.1.proper hp
      specs := base hspecs
      intent := base hintent
      source := base hsource }⟩

/-- A build of the default plan that completes ends with a default sequence that starts from a workspace
where the project is ready. -/
theorem ready_of_run {s : Services} {summary : BuildSummary} (hw : w.Sound) (hp : w.Proper)
    (h : (run s name .default).run w = .ok summary w') : ∃ c v w₁ w₂ w₃ w₄ w₅,
      c.project.Found name w ∧ (c.runner.concurrency : Int) = s.settings.maxConcurrency ∧ Ready c v ∧
        Sequence c v w₁ w₂ w₃ w₄ w₅ w' := by
  obtain ⟨c, w₀, v, front, hstart, hfront, w₁, w₂, w₃, w₄, w₅, hseq⟩ := run_eq_ok h
  obtain ⟨hfound, hready⟩ := ready_of_start hw hp hstart
  exact ⟨c, v, w₁, w₂, w₃, w₄, w₅, hfound, concurrency_of_start hstart,
    hfront.keeps (fun hI => hI.stage) hready, hseq⟩

end Build

end IntentBuild
