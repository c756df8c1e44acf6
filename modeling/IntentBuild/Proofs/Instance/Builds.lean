import IntentBuild.Proofs.Instance.Operations

/-!
# Builds and requests within an instance

A unit of work stays within the instance when it makes a node of its own and applies its results to
nodes of its own (`Work.Stays`).  The nodes of all units of a stage are found below the roots of the
project, and these were found by the name of the project.  So a build stays within the instance
whatever it is asked for (`Build.within_run`), and so does every request whose nodes are of the
instance (`Request.within`).
-/

namespace IntentBuild

open Op

variable {i : String} {others : String → Bool} {c : BuildContext}

/-! ## Units of work -/

namespace Work

variable {ρ : Type} {u : Work ρ}

/-- The unit stays within the instance. -/
structure Stays (i : String) (others : String → Bool) (u : Work ρ) : Prop where
  /-- The prompt is built within the instance. -/
  prompt : Safe (.within i others) u.prompt
  /-- The node is of the instance. -/
  node : Gives (.within i others) u.node (Node.Own others)
  /-- Every result that passes the check is applied in steps within the instance. -/
  steps : ∀ {r n}, u.check n r = .ok () → ∀ x ∈ u.steps r, Safe (.within i others) x

theorem Stays.ask (hu : u.Stays i others) :
    Gives (.within i others) u.ask fun q => q.node.Own others := by
  refine .after (.of_reader (reader_failIfCancelled _)) fun _ => .after hu.prompt fun _ => ?_
  refine .after (.of_reader (reader_inputTime u)) fun _ => hu.node.bind fun _ hn => ?_
  exact .after (.of_reader (.lift _ _)) fun _ => .pure hn

theorem within_stamp {n : Node} (hn : n.Own others) : ∀ s, Safe (.within i others) (stamp n s)
  | some _ => (Graph.own_setContent hn ..).andThen fun _ _ => .pure _
  | none => .pure _

/-- A unit that stays within the instance fares well: it asks for nodes of the instance only. -/
theorem Stays.fares (hu : u.Stays i others) (r : Runner) :
    u.Fares ((Regime.within i others).judgement trivial) r fun q => q.node.Own others where
  ask := hu.ask.runs
  cached {q} _ w _ := (runs_cached u r.cache q.node q.stale q.prompt w).weaken
    fun _ _ _ h a ha => ⟨0, h a ha⟩
  store hq _ _ := (r.cache.within_store hq ..).runs
  step ha x hx := by
    obtain ⟨n, hn⟩ := ha
    exact (hu.steps hn x hx).runs
  stamp hq := (within_stamp hq _).runs

theorem within_runAll {us : List (Work ρ)} (r : Runner) (hu : ∀ u ∈ us, u.Stays i others) :
    Safe (.within i others) (runAll us r) :=
  ⟨Fares.runAll fun u h => ⟨_, (hu u h).fares r⟩⟩

/-- A stage stays within the instance when its units do. -/
theorem within_ofUnits {s : Stage} {works : Op (List (Work ρ))} (r : Runner)
    (h : Gives (.within i others) works fun us => ∀ u ∈ us, u.Stays i others) :
    Safe (.within i others) (do return .ofUnits s (← runAll (← works) r) : Op StageReport) :=
  h.andThen fun _ hus => (within_runAll r hus).bind fun _ => .pure _

end Work

/-! ## Stages -/

namespace Stage

theorem within_forget (hp : c.project.Own others) {n : Node} (hn : n.Own others) :
    Safe (.within i others) (forget c n) :=
  (Graph.within_cascadeDelete hn true).bind fun _ =>
    (Manifest.within_reconcile hp.node).bind fun _ => .pure _

theorem within_pruneMissing (hp : c.project.Own others) {root : Node} (hr : root.Own others)
    (kind : Graph.FileKind) : Safe (.within i others) (pruneMissing c root kind) := by
  refine (Graph.own_fileNodes hr kind).andThen fun l hl => .bind (.forIn fun e he => ?_)
    fun _ => .pure _
  exact .bind (.of_reader (reader_isFile _)) fun _ => .ite (.once (within_forget hp (hl e he))) .on

end Stage

namespace TechStack

theorem within_apply (hp : c.project.Own others) {file : Node} (hf : file.Own others)
    (r : TechStackResult) : Safe (.within i others) (apply c file r) := by
  refine .reader (reader_summaryPath _) fun _ => (safe_writeIfChanged trivial).bind
    fun _ => (Graph.own_upsertDerived hf ..).andThen fun _ _ => ?_
  refine (Manifest.within_replaceDeclared hp.node hf _).bind fun _ => .bind ?_ fun _ => .pure _
  exact .forIn fun _ _ => .once (safe_notify _)

theorem within_run (hp : c.project.Own others) : Safe (.within i others) (run c) := by
  refine .reader (Stage.reader_markdownFiles _) fun files => ?_
  split
  · exact .pure _
  · refine (Graph.own_placeOf hp.specs ..).andThen fun file hf =>
      .reader (c.reader_toolConfig _) fun tool => (Work.within_runAll _ fun u hu => ?_).bind
        fun _ => .pure _
    rw [List.mem_singleton.mp hu]
    exact ⟨.of_reader ((reader_readText _).bind fun _ => .pure _),
      Graph.own_getOrCreate (fun _ h => Option.some.inj h ▸ hf) ..,
      fun _ _ hx => List.mem_singleton.mp hx ▸ within_apply hp hf _⟩
  · exact .throw _

end TechStack

namespace Lowering

theorem within_applyEntry (hp : c.project.Own others) (e : IntentEntry) :
    Safe (.within i others) (applyEntry c e) := by
  refine .reader (Graph.reader_pathOf _) fun dir => ?_
  cases e.change with
  | delete =>
      have rest {x : Option Node → Op Unit} (hx : ∀ n, x (some n) = Stage.forget c n)
          (h₀ : x none = pure ⟨⟩) : Safe (.within i others) (Graph.findPlaceOf c.project.intent
            (dir.child e.relativePath).text Graph.intentKind >>= x) := by
        refine (Graph.own_findPlaceOf hp.intent ..).andThen fun o ho => ?_
        cases o with
        | none => rw [h₀]; exact .pure _
        | some n => rw [hx]; exact Stage.within_forget hp (ho n rfl)
      refine .reads (reader_isFile _) fun w b hI hb => .ite (fun hfile => ?_) fun _ =>
        (rest (fun _ => rfl) rfl).runs w hI
      rw [isFile_run] at hb
      cases hb
      exact fun hw => (Runs.reads rfl <| (runs_removeFile (A := Event.Within i others) trivial
        hfile).bind fun _ _ _ hr _ => (rest (fun _ => rfl) rfl).runs_after hw hI hr) hw
  | set =>
      cases e.content with
      | none => exact .throw _
      | some text =>
          exact (safe_writeIfChanged trivial).bind fun _ =>
            (Graph.own_placeOf hp.intent ..).andThen fun _ _ => .pure _

theorem within_steps (hp : c.project.Own others) {file : Node} (hf : file.Own others)
    (r : LoweringResult) : ∀ x ∈ steps c file r, Safe (.within i others) x := by
  intro x hx
  rcases List.mem_append.mp hx with hx | hx
  · obtain ⟨e, -, rfl⟩ := List.mem_map.mp hx
    exact within_applyEntry hp e
  · rw [List.mem_singleton.mp hx]
    exact (Graph.own_upsertDerived hf ..).andThen fun _ _ => .pure _

theorem stays_work (hp : c.project.Own others) (tool : ToolConfig) (techStack : Option Members)
    (path : Path) : Gives (.within i others) (work c tool techStack path) (Work.Stays i others) := by
  rw [work_eq]
  refine (Graph.own_placeOf hp.specs ..).bind fun file hf => .after (.of_reader
    (Graph.reader_relativePath ..)) fun _ => .after (.of_reader (reader_readText _)) fun _ => ?_
  exact .pure ⟨.pure _, Graph.own_getOrCreate (fun _ h => Option.some.inj h ▸ hf) ..,
    fun _ => within_steps hp hf _⟩

theorem within_run (hp : c.project.Own others) : Safe (.within i others) (run c) := by
  refine Work.within_ofUnits _ (.after (.of_reader (Stage.reader_markdownFiles _)) fun _ => ?_)
  refine .after (Stage.within_pruneMissing hp hp.specs _) fun _ => ?_
  refine .after (.of_reader (TechStack.reader_current c)) fun _ => ?_
  refine .after (.of_reader (c.reader_toolConfig _)) fun _ => ?_
  exact .mapM fun _ _ => stays_work hp ..

end Lowering

namespace Indexing

theorem within_intentFiles : Safe (.within i others) (intentFiles c) :=
  ⟨fun _ _ => runs_intentFiles.weaken fun _ _ _ _ => trivial⟩

theorem own_fileNode (hp : c.project.Own others) (f : IntentFile) :
    Gives (.within i others) (fileNode c f) (Node.Own others) :=
  Graph.own_placeOf hp.intent ..

theorem stays_work (hp : c.project.Own others) (tool : ToolConfig) (f : IntentFile) :
    Gives (.within i others) (work c tool f) (Work.Stays i others) := by
  rw [work_eq]
  refine (own_fileNode hp f).bind fun file hf => .after (.of_reader (reader_readText _)) fun _ => ?_
  have happly (r : IndexResult) : Safe (.within i others) (apply file r) :=
    (Graph.own_upsertDerived hf ..).andThen fun _ _ => .pure _
  exact .pure ⟨.pure _, Graph.own_getOrCreate (fun _ h => Option.some.inj h ▸ hf) ..,
    fun _ _ hx => List.mem_singleton.mp hx ▸ happly _⟩

theorem within_run (hp : c.project.Own others) : Safe (.within i others) (run c) := by
  refine Work.within_ofUnits _ (.after (Stage.within_pruneMissing hp hp.intent _) fun _ => ?_)
  refine .after (.of_reader (c.reader_toolConfig _)) fun _ => .after within_intentFiles fun _ => ?_
  exact .mapM fun _ _ => stays_work hp ..

end Indexing

namespace Compilation

theorem within_applySource (hp : c.project.Own others) {file : Node} (hf : file.Own others)
    (relative source : String) : Safe (.within i others) (applySource c file relative source) := by
  refine .reader (Graph.reader_pathOf _) fun _ => (safe_writeIfChanged trivial).bind
    fun _ => (Graph.own_placeOf hp.source ..).andThen fun n hn => ?_
  exact (Graph.own_setContent hn ..).andThen fun _ _ =>
    (Graph.within_link hf hn ..).bind fun _ => .pure _

theorem within_steps (hp : c.project.Own others) {file : Node} (hf : file.Own others)
    (relative text : String) (r : CompileResult) :
    ∀ x ∈ steps c file relative text r, Safe (.within i others) x := by
  intro x hx
  obtain ⟨s, rfl⟩ | rfl | rfl := mem_steps hx
  · exact within_applySource hp hf relative s
  · exact (Manifest.within_applyDeltas hp.node hf _).bind fun _ => .pure _
  · exact (Graph.own_setContent hf ..).andThen fun _ _ =>
      (Graph.own_upsertDerived hf ..).andThen fun _ _ => .pure _

theorem stays_work (hp : c.project.Own others) (s : Shared) {f : Indexing.IntentFile × Node}
    (hf : f.2.Own others) : Gives (.within i others) (work c s f) (Work.Stays i others) :=
  .after (.of_reader (reader_readText _)) fun _ => .pure ⟨.pure _,
    Graph.own_getOrCreate (fun _ h => Option.some.inj h ▸ hf) .., fun _ => within_steps hp hf _ _ _⟩

theorem within_run (hp : c.project.Own others) : Safe (.within i others) (run c) := by
  refine Work.within_ofUnits _ (.after Indexing.within_intentFiles fun fs => ?_)
  have hnodes : Gives (.within i others) (fs.mapM fun f => return (f, ← Indexing.fileNode c f))
      fun files => ∀ f ∈ files, f.2.Own others :=
    .mapM fun f _ => (Indexing.own_fileNode hp f).bind fun _ hn => .pure hn
  refine hnodes.bind fun files hfiles => ?_
  refine .after (.of_reader (.mapM reader_indexedTree? _)) fun _ => ?_
  refine .after (DepsFile.within_synced hp.node) fun _ => ?_
  refine .after (.of_reader (c.reader_toolConfig _)) fun _ => ?_
  exact .mapM fun f hf => stays_work hp _ (hfiles f hf)

end Compilation

/-! ## Builds -/

namespace Build

theorem within_runStage (hp : c.project.Own others) (s : Stage) :
    Safe (.within i others) (runStage c s) := by
  cases s with
  | techStack => exact TechStack.within_run hp
  | lowering => exact Lowering.within_run hp
  | refresh => exact (DepsFile.within_sync hp.node).bind fun _ => .pure _
  | indexing => exact Indexing.within_run hp
  | compilation => exact Compilation.within_run hp

theorem own_start (s : Services) (name : String) :
    Gives (.within i others) (start s name) fun c => c.project.Own others := by
  refine (Project.own_require name).bind fun p hp => ?_
  have hprepare : Gives (.within i others) (prepare s p) fun c => c.project.Own others :=
    .after (DepsFile.within_verify hp.node) fun _ => .after
      (.of_reader (Registry.reader_installed _)) fun _ => .after (.of_reader (.lift _ _))
        fun _ => .pure hp
  exact .ite (.after (.throw _) fun _ => hprepare) hprepare

theorem within_run (s : Services) (name : String) (plan : Plan) :
    Safe (.within i others) (run s name plan) :=
  (own_start s name).andThen fun _ hc =>
    (safe_advanceAll (within_runStage hc) ..).bind fun _ => .pure _

theorem within_launch (b : Bool) (s : Services) (name : String) (plan : Plan) :
    Safe (.within i others) (launch b s name plan) := by
  have hcalls : (Regime.within i others).admits .calls := trivial
  have htoken : Safe (.within i others) (modify fun w => { w with cancelled := b }) :=
    ⟨fun w _ _ => ⟨.single (.inr hcalls) (.calls w w.calls b) rfl rfl, trivial⟩⟩
  exact htoken.bind fun _ => within_run s name plan

end Build

/-! ## Requests -/

namespace Request

/-- The nodes among the arguments are none of the others. -/
def Asks (others : String → Bool) : Request → Prop
  | getOrCreate parent .. => ∀ p, parent = some p → p.Own others
  | placeOf root .. => root.Own others
  | setContent n .. | cascadeDelete n _ | store _ n .. | delete _ n .. | invalidate n =>
      n.Own others
  | upsertDerived parent .. => parent.Own others
  | link source target .. | unlink source target .. => source.Own others ∧ target.Own others
  | applyDeltas project file _ | replaceDeclared project file _ =>
      project.Own others ∧ file.Own others
  | reconcile project | sync project | install project _ | uninstall project _ =>
      project.Own others
  | setup .. | build .. => True

/-- A request stays within the instance of its nodes. -/
theorem within {r : Request} (h : r.Asks others) : Safe (.within i others) r.op := by
  cases r with
  | getOrCreate => exact (Graph.own_getOrCreate h ..).andThen fun _ _ => .pure _
  | placeOf => exact (Graph.own_placeOf h ..).andThen fun _ _ => .pure _
  | setContent => exact (Graph.own_setContent h ..).andThen fun _ _ => .pure _
  | upsertDerived => exact (Graph.own_upsertDerived h ..).andThen fun _ _ => .pure _
  | link => exact (Graph.within_link h.1 h.2 ..).bind fun _ => .pure _
  | unlink => exact (Graph.within_unlink h.1 ..).bind fun _ => .pure _
  | cascadeDelete => exact (Graph.within_cascadeDelete h _).bind fun _ => .pure _
  | store c => exact (c.within_store h ..).bind fun _ => .pure _
  | delete c => exact (c.within_delete h ..).bind fun _ => .pure _
  | invalidate => exact (Cache.within_invalidate h).bind fun _ => .pure _
  | applyDeltas => exact (Manifest.within_applyDeltas h.1 h.2 _).bind fun _ => .pure _
  | replaceDeclared => exact (Manifest.within_replaceDeclared h.1 h.2 _).bind fun _ => .pure _
  | reconcile => exact (Manifest.within_reconcile h).bind fun _ => .pure _
  | sync => exact (DepsFile.within_sync h).bind fun _ => .pure _
  | setup => exact (Project.own_setup ..).andThen fun _ _ => .pure _
  | install => exact (Registry.within_install h _).bind fun _ => .pure _
  | uninstall => exact (Registry.within_remove h _).bind fun _ => .pure _
  | build => exact (Build.within_launch ..).bind fun _ => .pure _

end Request

end IntentBuild
