import IntentBuild.Proofs.Build.Freshness
import IntentBuild.Proofs.Operation.Score

/-!
# Cancelled builds

A build is cancelled from outside, or by an answer to one of its calls.  Its score shows all of its
gates: one before every stage, one before every unit, and one before every attempt
(`Build.score`).  Where units run one at a time a build does what its score says
(`Build.run_score`), so every play of the score is a way for the build to go while somebody may
cancel it at any moment.

In every play nothing starts after the first cancellation.  A unit that ends because the build was
cancelled leaves everything untouched, and its result is applied to nothing
(`Build.halts_when_cancelled`).
-/

namespace IntentBuild

open Op

/-! ## The score of a unit -/

namespace Work

variable {ρ : Type} {u : Work ρ} {r : Runner} {endpoint : Endpoint} {prompt : String}

/-- The part of a run that looks what to make a result from. -/
def look (u : Work ρ) : Op Query := do
  let prompt ← u.prompt
  let changed ← u.inputTime
  let node ← u.node
  let stale ← Op.lift (fun e => e) (isStale node changed)
  return { prompt, changed, node, stale }

theorem ask_eq (u : Work ρ) :
    u.ask = failIfCancelled ("before " ++ u.label) >>= fun _ => u.look := rfl

/-- The score of the attempts of a unit. -/
def attempts (u : Work ρ) (endpoint : Endpoint) (prompt : String) :
    (left : Nat) → (checked : Nat) → List Rejection → Score (Accepted ρ × Nat)
  | 0, checked, reasons => .op (u.generateFrom endpoint prompt 0 checked reasons)
  | left + 1, checked, reasons =>
      let n := attemptBudget - left
      .bind (.gate ("before attempt " ++ Nat.repr n ++ " of " ++ u.label)
        (some (.call (u.call prompt))) (u.attempt endpoint prompt checked)) fun a =>
          match a.outcome with
          | .ok r => .op (pure (r, n))
          | .error e => .bind (.op (Op.notify (.attemptFailed u.label n attemptBudget e))) fun _ =>
              attempts u endpoint prompt left a.checked (reasons ++ [e])

theorem run_attempts (left : Nat) (checked : Nat) (reasons : List Rejection) :
    (u.attempts endpoint prompt left checked reasons).run =
      u.generateFrom endpoint prompt left checked reasons := by
  induction left generalizing checked reasons with
  | zero => rfl
  | succ left ih =>
      rw [attempts, generateFrom, Score.run, Score.run, bind_assoc]
      refine congrArg _ (funext fun _ => congrArg _ (funext fun a => ?_))
      cases a.outcome with
      | ok r => rfl
      | error e =>
          change (Op.notify _ >>= fun _ => (u.attempts endpoint prompt left _ _).run) = _
          rw [ih]

/-- The score of a unit. -/
def score (u : Work ρ) (r : Runner) : Score (UnitReport ρ) :=
  .bind (.gate ("before " ++ u.label) (some (.unit u.label)) u.look) fun q =>
    .bind (.op (u.cached r.cache q.node q.stale q.prompt)) fun
      | (some a, _) => .op (u.conclude q (a, none))
      | (none, checked) => .bind (u.attempts r.endpoint q.prompt attemptBudget checked []) fun p =>
          .op (u.keep r q p)

theorem run_score (u : Work ρ) (r : Runner) : (u.score r).run = u.run r := by
  rw [run_eq, ask_eq]
  refine congrArg _ (funext fun q => ?_)
  rw [obtain, bind_assoc]
  refine congrArg _ (funext fun p => ?_)
  obtain ⟨_ | a, checked⟩ := p
  · rw [Score.run, run_attempts]
    simp only [bind_assoc, pure_bind]
    rfl
  · rfl

/-- The score of units in order. -/
def row (r : Runner) : List (Work ρ) → Score (List (UnitReport ρ))
  | [] => .op (pure [])
  | u :: us => .bind (u.score r) fun a => .bind (row r us) fun as => .op (pure (a :: as))

theorem run_row (hr : r.concurrency ≤ 1) (us : List (Work ρ)) : (row r us).run = runAll us r := by
  rw [runAll, if_pos (by simp [hr])]
  induction us with
  | nil => rfl
  | cons u us ih =>
      rw [List.mapM_cons, row, Score.run, run_score]
      refine congrArg _ (funext fun a => ?_)
      rw [Score.run, ih]
      rfl

end Work

/-! ## The score of a build -/

/-- The units of the stage, if there is a specification of the tech stack. -/
def TechStack.works (c : BuildContext) : Op (List (Work TechStackResult)) := do
  let files ← Stage.markdownFiles c.project.specs
  match files.filter fun p => p.name == Stage.techStackFile with
  | [] => return []
  | [path] =>
      let file ← Graph.placeOf c.project.specs path.text Graph.specKind
      let tool ← c.toolConfig .techStack
      return [work c tool path file]
  | paths => throw (.build (.techStacks paths))

theorem TechStack.run_eq (c : BuildContext) :
    run c = do return .ofUnits .techStack (← Work.runAll (← works c) c.runner) := by
  rw [run, works, bind_assoc]
  refine congrArg _ (funext fun files => ?_)
  generalize (files.filter fun p => p.name == Stage.techStackFile) = specs
  rcases specs with _ | ⟨path, _ | ⟨_, _⟩⟩
  · rw [pure_bind, Work.runAll, if_pos (by simp)]
    rfl
  · simp only [bind_assoc, pure_bind]
  · rfl

namespace Build

variable {c : BuildContext} {settings : Settings} {s : Services} {name : String} {plan : Plan}

/-- The score of a stage that runs units. -/
def unitsScore {ρ : Type} (c : BuildContext) (s : Stage) (works : Op (List (Work ρ))) :
    Score StageReport :=
  .bind (.op works) fun us => .bind (Work.row c.runner us) fun rs => .op (pure (.ofUnits s rs))

/-- The score of a stage. -/
def stageScore (c : BuildContext) : Stage → Score StageReport
  | .techStack => unitsScore c .techStack (TechStack.works c)
  | .lowering => unitsScore c .lowering (Lowering.works c)
  | .refresh => .op (runStage c .refresh)
  | .indexing => unitsScore c .indexing (Indexing.works c)
  | .compilation => unitsScore c .compilation (Compilation.works c)

theorem run_unitsScore {ρ : Type} (hc : c.runner.concurrency ≤ 1) (s : Stage)
    (works : Op (List (Work ρ))) : (unitsScore c s works).run =
      do return .ofUnits s (← Work.runAll (← works) c.runner) := by
  refine congrArg _ (funext fun us => ?_)
  rw [Score.run, Work.run_row hc]
  rfl

theorem run_stageScore (hc : c.runner.concurrency ≤ 1) (s : Stage) :
    (stageScore c s).run = runStage c s := by
  cases s with
  | techStack => exact (run_unitsScore hc _ _).trans (TechStack.run_eq c).symm
  | refresh => rfl
  | lowering | indexing | compilation => exact run_unitsScore hc _ _

/-- The end of a plan with some steps left. -/
def close (settings : Settings) (left : Nat) (p : Plan) : Op Plan :=
  if left < 2 then throw (.build (.steps settings.recursionLimit)) else return p

/-- The score of a plan with some steps left. -/
def planScore (settings : Settings) (c : BuildContext) : (left : Nat) → Plan → Score Plan
  | 0, _ => .op (throw (.build (.steps settings.recursionLimit)))
  | left + 1, p =>
      match p.pop with
      | (none, p) => .gate "between stages" none (close settings left p)
      | (some stage, p) =>
          .bind (.gate "between stages" (some (.stage stage)) (pure PUnit.unit)) fun _ =>
            .bind (stageScore c stage) fun r =>
              match afterStage settings.maxReplans p r with
              | (_, .error e) => .op (throw e)
              | (p, .ok true) => planScore settings c left p
              | (p, .ok false) => .op (close settings left p)

theorem run_planScore (hc : c.runner.concurrency ≤ 1) (left : Nat) (p : Plan) (w : Workspace) :
    (planScore settings c left p).run.run w = (advanceAll settings c left p).run w := by
  induction left generalizing p w with
  | zero => rfl
  | succ left ih =>
      have hgate := failIfCancelled_run "between stages" w
      rw [planScore, advanceAll]
      by_cases hlive : w.cancelled = true
      · rw [if_pos hlive] at hgate
        rw [bind_ok (advance_cancelled hlive)]
        rcases p.pop with ⟨_ | stage, q⟩
        · exact bind_error hgate
        · exact bind_error (bind_error hgate)
      rw [if_neg hlive] at hgate
      rw [Bool.not_eq_true] at hlive
      rcases hp : p.pop with ⟨_ | stage, q⟩
      · rw [bind_ok (advance_none hlive hp)]
        exact bind_ok hgate
      · refine (bind_ok (bind_ok hgate)).trans ?_
        rw [Score.run, run_stageScore hc]
        cases hrun : (runStage c stage).run w with
        | error e w' => rw [bind_ok (advance_error hlive hp hrun)]; exact bind_error hrun
        | ok r w' =>
            rw [bind_ok (advance_ok hlive hp hrun), bind_ok hrun]
            rcases afterStage settings.maxReplans q r with ⟨q', e | _ | _⟩
            · rfl
            · rfl
            · exact ih ..

/-- The score of a build. -/
def score (s : Services) (name : String) (plan : Plan) : Score BuildSummary :=
  .bind (.op (start s name)) fun c =>
    .bind (planScore s.settings c (s.settings.recursionLimit - 1).toNat plan) fun p =>
      .op (pure (.ofPlan c.project.node.name p))

/-- A build does what its score says. -/
theorem run_score (hs : s.settings.maxConcurrency ≤ 1) (w : Workspace) :
    (score s name plan).run.run w = (run s name plan).run w := by
  rw [score, run, Score.run]
  cases hstart : (start s name).run w with
  | error e w' => rw [bind_error hstart]; exact bind_error hstart
  | ok c w' =>
      have hc : c.runner.concurrency ≤ 1 := by
        have := concurrency_of_start hstart
        omega
      have hplan : (planScore s.settings c (s.settings.recursionLimit - 1).toNat plan).run.run w' =
          (advanceAll s.settings c (s.settings.recursionLimit - 1).toNat plan).run w' :=
        run_planScore hc _ _ _
      rw [bind_ok hstart]
      refine (bind_ok hstart).trans ?_
      cases hall : (advanceAll s.settings c (s.settings.recursionLimit - 1).toNat plan).run w' with
      | error e w'' => rw [bind_error hall]; exact bind_error (hplan.trans hall)
      | ok p w'' => rw [bind_ok hall]; exact bind_ok (hplan.trans hall)

end Build

/-! ## Scores in tune -/

namespace Work

variable {ρ : Type} {u : Work ρ} {Q : UnitReport ρ → Prop}

theorem Fits.look (hu : u.Fits .uncalled) : Safe .uncalled u.look :=
  hu.prompt.bind fun _ => .reader (reader_inputTime u) fun _ => hu.node.bind fun _ =>
    .lift _ fun _ => .pure _

/-- What is accepted has passed the check. -/
theorem inTune_attempts (u : Work ρ) (endpoint : Endpoint) (prompt : String) (left checked : Nat)
    (reasons : List Rejection) : (u.attempts endpoint prompt left checked reasons).InTune fun p =>
      ∃ n, u.check n p.1.result = .ok () := by
  induction left generalizing checked reasons with
  | zero => exact fun w => (runs_notify _).bind fun _ _ _ _ _ => .throw _
  | succ left ih =>
      refine fun w => ⟨fun _ => ⟨.single (.inr trivial) (.calls w _ _) rfl rfl, ?_⟩, fun _ => rfl⟩
      dsimp only
      split
      · rename_i r hr
        exact fun _ => .pure ⟨checked, check_of_judge hr⟩
      · exact fun w => (runs_notify _).bind fun _ _ _ _ _ => .pure (ih _ _)

/-- The score of a unit that fits tells of all calls. -/
theorem inTune_score (hu : u.Fits .uncalled) (r : Runner) :
    (u.score r).InTune fun _ => True := by
  refine fun w => ⟨((hu.look.runs w trivial).mono fun _ _ => trivial).weaken fun q _ _ _ => ?_,
    fun hw => ((hu.look.runs w trivial).after hw).calls_eq.1⟩
  refine fun w => (runs_cached u r.cache q.node q.stale q.prompt w).weaken fun p _ _ hp => ?_
  obtain ⟨_ | a, checked⟩ := p
  · refine (inTune_attempts u r.endpoint q.prompt attemptBudget checked []).mono fun p hp w => ?_
    obtain ⟨n, hn⟩ := hp
    exact (safe_keep hu hn).runs w trivial
  · exact fun w => (hu.conclude Regime.keeps_uncalled q (p := (a, none)) (hp a rfl)).runs w trivial

theorem inTune_row (r : Runner) {us : List (Work ρ)} (hus : ∀ u ∈ us, u.Fits .uncalled) :
    (row r us).InTune fun _ => True := by
  induction us with
  | nil => exact fun _ => .pure trivial
  | cons u us ih =>
      obtain ⟨hu, hus⟩ := List.forall_mem_cons.mp hus
      exact (inTune_score hu r).mono fun a _ => (ih hus).mono fun as _ _ => .pure trivial

end Work

/-- The units of the stage fit. -/
theorem TechStack.runs_works {R : Regime} {c : BuildContext} (hR : R.Crafts c) {w : Workspace}
    (hI : R.holds w) : Runs R.admits w (works c) fun us _ => ∀ u ∈ us, u.Fits R := by
  refine .reader (Stage.reader_markdownFiles _) fun files _ => ?_
  split
  · exact .pure nofun
  · refine (((hR.places _ (by decide) (by decide)).safe_placeOf _).runs w hI).bind
      fun file _ _ _ _ => .reader (c.reader_toolConfig _) fun tool _ => .pure fun u hu => ?_
    rw [List.mem_singleton.mp hu]
    exact fits_work (hR.resolves file) ..
  · exact .throw _

namespace Build

variable {c : BuildContext}

theorem inTune_unitsScore {ρ : Type} {s : Stage} {works : Op (List (Work ρ))}
    (h : ∀ w, Runs Regime.uncalled.admits w works fun us _ => ∀ u ∈ us, u.Fits .uncalled) :
    (unitsScore c s works).InTune fun _ => True :=
  fun w => (h w).weaken fun _ _ _ hus => (Work.inTune_row _ hus).mono fun _ _ _ => .pure trivial

/-- The score of a stage tells of all calls. -/
theorem inTune_stageScore (c : BuildContext) (s : Stage) :
    (stageScore c s).InTune fun _ => True := by
  have hR := Regime.crafts_uncalled c
  cases s with
  | techStack => exact inTune_unitsScore fun _ => TechStack.runs_works hR trivial
  | lowering =>
      exact inTune_unitsScore fun _ =>
        Lowering.runs_works hR.toDeclares hR.forgets_specFile hR.shows_specs hR.lowers trivial
  | refresh =>
      have hsync : Safe .uncalled (DepsFile.sync c.project.node) :=
        DepsFile.safe_sync hR.toDeclares (fun _ _ _ _ h => nomatch h)
          fun _ _ => ⟨nofun, nofun⟩
      exact fun w => (hsync.bind fun _ => .pure _).runs w trivial
  | indexing =>
      have hdata (file : Node) : Regime.uncalled.Derives file .indexedData :=
        hR.derives file (by decide)
      exact inTune_unitsScore fun _ => Indexing.runs_works hR.toDeclares hR.forgets_intentFile
        hR.shows_intent hdata trivial
  | compilation =>
      exact inTune_unitsScore fun _ => Compilation.fits_works hR.toDeclares hR.shows_intent
        (fun file _ hf => hR.compiles file hf.below) trivial

theorem safe_close {R : Regime} (settings : Settings) (left : Nat) (p : Plan) :
    Safe R (close settings left p) :=
  .ite (.throw _) (.pure _)

theorem inTune_planScore (settings : Settings) (c : BuildContext) (left : Nat) (p : Plan) :
    (planScore settings c left p).InTune fun _ => True := by
  induction left generalizing p with
  | zero => exact fun _ => .throw _
  | succ left ih =>
      have hclose (p : Plan) : Safe .uncalled (close settings left p) := safe_close ..
      rw [planScore]
      split
      · exact fun w => ⟨((hclose _).runs w trivial).mono fun _ _ => trivial,
          fun hw => (((hclose _).runs w trivial).after hw).calls_eq.1⟩
      · refine fun w => ⟨.pure ?_, fun _ => rfl⟩
        refine (inTune_stageScore c _).mono fun r _ => ?_
        dsimp only
        split
        · exact fun _ => .throw _
        · exact ih _
        · exact fun w => (hclose _).runs w trivial

/-- The score of a build tells of all calls. -/
theorem inTune_score (s : Services) (name : String) (plan : Plan) :
    (score s name plan).InTune fun _ => True := by
  have hstart : Safe .uncalled (start s name) := safe_start Regime.declares_uncalled s name
  exact fun w => (hstart.runs w trivial).weaken fun c _ _ _ =>
    (inTune_planScore s.settings c _ plan).mono fun p _ _ => .pure trivial

end Build

/-! ## Units that were cancelled -/

namespace Work

variable {ρ : Type} {u : Work ρ} {r : Runner} {w w' : Workspace} {log : List Beat} {e : Failure}

theorem Generative.heedless_look (hu : u.Generative) : Heedless u.look := by
  obtain ⟨file, type, name, hnode, -⟩ := hu.node
  refine hu.asks.bind fun _ => (heedless_inputTime u).bind fun _ => .bind ?_ fun _ =>
    (heedless_isStale _ _).bind fun _ => .pure _
  rw [hnode]
  exact Graph.avoids_getOrCreate ..

theorem Generative.heedless_conclude (hu : u.Generative) (q : Query) (p : ρ × Option Nat) :
    Heedless (u.conclude q p) := by
  have hsurface (d : Diagnostics) : Heedless (surface u.label d) :=
    .bind (.forIn fun _ _ => .once (avoids_notify _)) fun _ =>
      .bind (.forIn fun _ _ => .once (avoids_notify _)) fun _ => .ite (.throw nofun) (.pure _)
  exact (hu.apply _).bind fun _ => (heedless_stamp ..).bind fun _ => (hsurface _).bind fun _ => .pure _

theorem Generative.heedless_keep (hu : u.Generative) (q : Query) (p : Accepted ρ × Nat) :
    Heedless (u.keep r q p) :=
  (Cache.heedless_store ..).bind fun _ => hu.heedless_conclude q _

/-- Attempts only make calls. -/
theorem within_attempts (u : Work ρ) (endpoint : Endpoint) (prompt : String)
    (left checked : Nat) (reasons : List Rejection) :
    (u.attempts endpoint prompt left checked reasons).Within (· = .calls) := by
  induction left generalizing checked reasons with
  | zero => exact (safe_notify _).bind fun _ => .throw _
  | succ left ih =>
      refine ⟨(safe_send rfl endpoint _).bind fun _ => .pure _, fun a => ?_⟩
      dsimp only
      split
      · exact .pure _
      · exact ⟨safe_notify _, fun _ => ih _ _⟩

theorem attempt_steps (u : Work ρ) (f : ρ → List (Op Unit)) (endpoint : Endpoint) (prompt : String)
    (checked : Nat) : ({ u with steps := f } : Work ρ).attempt endpoint prompt checked =
      u.attempt endpoint prompt checked := by
  have hjudge (o : Outcome) :
      ({ u with steps := f } : Work ρ).judge checked o = u.judge checked o := by
    cases o <;> simp only [judge]
  rw [attempt, attempt]
  simp only [hjudge]

/-- The attempts do not depend on how a result is applied. -/
theorem attempts_steps (u : Work ρ) (f : ρ → List (Op Unit)) (endpoint : Endpoint) (prompt : String)
    (left checked : Nat) (reasons : List Rejection) :
    ({ u with steps := f } : Work ρ).attempts endpoint prompt left checked reasons =
      u.attempts endpoint prompt left checked reasons := by
  induction left generalizing checked reasons with
  | zero => rfl
  | succ left ih =>
      rw [attempts, attempts, attempt_steps]
      simp only [ih]
      rfl

/-- A unit that ends because the build was cancelled has only looked what to make a result from, and
has made calls.  Nothing depends on how it would apply a result. -/
theorem untouched_of_cancelled (hu : u.Generative) (hw : w.Sound)
    (h : (u.score r).Plays w log (.error e w')) (he : e.IsCancellation) :
    (∃ n, Untouched n w w') ∧
      ∀ f, (({ u with steps := f } : Work ρ).score r).Plays w log (.error e w') := by
  rcases h.of_bind with ⟨e', w₁, hgate, heq⟩ | ⟨first, last, q, w₁, hgate, hrest, rfl⟩
  · cases heq
    obtain ⟨v, hv, hask⟩ := hgate.of_gate
    refine ⟨?_, fun f => .stop hgate⟩
    obtain ⟨file, -⟩ := hu.node
    cases hcheck : (failIfCancelled ("before " ++ u.label)).run v with
    | ok _ v' => rw [bind_ok hcheck] at hask; exact absurd he (hu.heedless_look.out hask.symm)
    | error _ v' =>
        rw [bind_error hcheck] at hask
        cases hask
        obtain ⟨-, rfl⟩ := Score.held_eq hcheck
        rcases hv with rfl | rfl
        · exact ⟨file, rfl, rfl, .inl rfl, fun _ _ => rfl⟩
        · exact ⟨file, rfl, rfl, .inl rfl, fun _ _ => rfl⟩
  · obtain ⟨v, hv, hask⟩ := hgate.of_gate
    have hreach : Reach (fun e => e = .calls ∨ e.Grows) w v := hv.reach (.inl rfl)
    obtain ⟨hgrows, huntouched⟩ := untouched_of_ask hu (hreach.sound hw) hask.symm
    have hreach := hreach.trans (hgrows.mono fun _ => .inr)
    rcases hrest.of_bind with ⟨e', w₂, hcached, heq⟩ | ⟨first', last', p, w₂, hcached, hrest, rfl⟩
    · cases heq
      obtain ⟨v₁, -, hrun⟩ := hcached.of_op
      exact absurd he ((heedless_cached ..).out hrun.symm)
    obtain ⟨v₁, hv₁, hrun⟩ := hcached.of_op
    obtain ⟨_ | a, checked⟩ := p
    swap
    · obtain ⟨v₂, -, hrun⟩ := hrest.of_op
      exact absurd he ((hu.heedless_conclude q _).out hrun.symm)
    rcases hrest.of_bind with ⟨e', w₃, hattempts, heq⟩ | ⟨_, _, p, w₃, -, hkeep, -⟩
    swap
    · obtain ⟨v₂, -, hrun⟩ := hkeep.of_op
      exact absurd he ((hu.heedless_keep q p).out hrun.symm)
    cases heq
    have hreach := hreach.trans (hv₁.reach (.inl rfl))
    have hquiet := (((safe_cached (R := .only Event.None) u r.cache q.node q.stale q.prompt).runs v₁
      trivial).ok (hreach.sound hw) hrun.symm).1
    have hreach := hreach.trans hquiet.of_quiet
    have hcalls := hattempts.reach (A := (· = .calls)) rfl (within_attempts ..) (hreach.sound hw)
    have hreach := hreach.trans (hcalls.mono fun _ => .inl)
    have htables : w'.tables = w₁.tables :=
      (hcalls.tables_of_calls.trans hquiet.tables_of_quiet).trans hv₁.tables_eq
    refine ⟨⟨q.node, ?_, ?_, ?_, fun k hk => (hreach.mono ?_).fileAt?_eq hk⟩, fun f => ?_⟩
    · rw [htables, huntouched.edges, hv.tables_eq]
    · rw [htables, huntouched.records, hv.tables_eq]
    · rw [htables, ← hv.tables_eq]
      exact huntouched.nodes
    · rintro _ (rfl | he)
      · trivial
      · exact he.clears _ k
    · exact .next hgate (.next hcached (.stop (by rw [attempts_steps]; exact hattempts)))

end Work

namespace Build

/-- Where units run one at a time, a build plays its score, and in every play nothing starts where
the build was cancelled, neither a stage nor a unit nor a call.  A unit plays its score as well, and
when it ends because the build was cancelled all is untouched, whatever a result would have been
applied to. -/
theorem halts_when_cancelled (s : Services) (name : String) (plan : Plan) {w : Workspace}
    (hs : s.settings.maxConcurrency ≤ 1) (hw : w.Sound) :
    (∃ log, (score s name plan).Plays w log ((run s name plan).run w)) ∧
    (∀ {log r}, (score s name plan).Plays w log r →
      (w.cancelled = true → ∀ x, .start x ∉ log) ∧
      (∀ {before after}, log = before ++ .cancel :: after → ∀ x, .start x ∉ after) ∧
      (Score.left r).calls = Beat.calls log ++ w.calls ∧
      ((Score.left r).cancelled = true ↔ w.cancelled = true ∨ .cancel ∈ log)) ∧
    ∀ {c : BuildContext} {ρ : Type} {u : Work ρ}, Work.Built c u →
      ∀ {r : Runner} {v : Workspace}, v.Sound →
        (∃ log, (u.score r).Plays v log ((u.run r).run v)) ∧
        ∀ {log e v'}, (u.score r).Plays v log (.error e v') → e.IsCancellation →
          (∃ n, Work.Untouched n v v') ∧
            ∀ f, (({ u with steps := f } : Work ρ).score r).Plays v log (.error e v') := by
  refine ⟨?_, fun {log r} hplays => ?_, fun {c ρ u} hu {r v} hv =>
    ⟨?_, fun hplays he => Work.untouched_of_cancelled hu.generative hv hplays he⟩⟩
  · rw [← run_score hs]
    exact (score s name plan).plays_run w
  · obtain ⟨hlogs, -⟩ := hplays.logs (inTune_score s name plan) hw
    refine ⟨fun hc x hx => ?_, fun h => (h ▸ hlogs).not_start, hlogs.calls, hlogs.cancelled⟩
    cases hlogs.silent hc _ hx
  · rw [← Work.run_score]
    exact (u.score r).plays_run v

/-- The new project with a specification of its tech stack. -/
def specified : Workspace :=
  (Op.writeIfChanged (.ofText "/work/demo/specs/tech-stack.md") "Use Rust.\n").after Project.sample

theorem sound_specified : specified.Sound :=
  (((safe_writeIfChanged (R := .any) trivial).runs _ trivial).after Project.sound_sample).sound
    Project.sound_sample

/-- Services whose endpoint has the build cancelled at every call, and gives no answer. -/
def abrupt : Services where
  settings := {}
  tools := { byTool := [("tech-stack", "m")], timeout := 120 }
  endpoint := fun _ _ => ⟨.raised "TimeoutError" "no answer", true⟩

/-- The place where the unit of the tech stack ends that is cancelled during its first call. -/
def secondAttempt : String := "before attempt 2 of tech stack (tech-stack.md)"

/-- A build that is cancelled during its first call starts nothing else, and the unit that made the
call leaves all untouched. -/
theorem halts_when_cancelled_abrupt :
    (∃ log w', (score abrupt "demo" .default).Plays specified log
        (.error (.build (.cancelled secondAttempt)) w') ∧ w'.calls.length = 1 ∧ .cancel ∈ log ∧
      ∀ before after, log = before ++ .cancel :: after → ∀ x, .start x ∉ after) ∧
    ∃ n w log w', Work.loneFile.run Project.blank = .ok n w ∧
      ((Work.loneUnit n).score { Work.unreachable with endpoint := abrupt.endpoint }).Plays w log
        (.error (.build (.cancelled secondAttempt)) w') ∧ ∃ m, Work.Untouched m w w' := by
  obtain ⟨⟨log, hplays⟩, hlogs, hunits⟩ :=
    halts_when_cancelled abrupt "demo" .default (by decide) sound_specified
  constructor
  · obtain ⟨hlive, hok⟩ : specified.cancelled = false ∧
        (match (run abrupt "demo" .default).run specified with
          | .error (.build (.cancelled place)) w' =>
              w'.calls.length == 1 && w'.cancelled && place == secondAttempt
          | _ => false) = true := by decide +kernel
    split at hok
    · rename_i place w' hrun
      simp only [Bool.and_eq_true, beq_iff_eq] at hok
      obtain ⟨⟨hcalls, hcancelled⟩, rfl⟩ := hok
      rw [hrun] at hplays
      obtain ⟨-, hhalts, -, hcancel⟩ := hlogs hplays
      exact ⟨log, w', hplays, hcalls, (hcancel.mp hcancelled).resolve_left (by simp [hlive]),
        fun _ _ => hhalts⟩
    · cases hok
  · have hok : (match Work.loneFile.run Project.blank with
        | .ok n w =>
            match ((Work.loneUnit n).run
              { Work.unreachable with endpoint := abrupt.endpoint }).run w with
            | .error (.build (.cancelled place)) _ => place == secondAttempt
            | _ => false
        | _ => false) = true := by decide +kernel
    split at hok
    · rename_i n w hfile
      have hw : w.Sound := ((Work.safe_loneFile.runs _ trivial).ok Project.sound_blank hfile).1.sound
        Project.sound_blank
      split at hok
      · rename_i place w' hrun
        obtain rfl := beq_iff_eq.mp hok
        have hbuilt : Work.Built (Work.alone n) (Work.loneUnit n) := .techStack ..
        obtain ⟨⟨log', hplays'⟩, huntouched⟩ := hunits hbuilt hw
        rw [hrun] at hplays'
        exact ⟨n, w, log', w', hfile, hplays', (huntouched hplays' ⟨_, rfl⟩).1⟩
      · cases hok
    · cases hok

end Build

end IntentBuild
