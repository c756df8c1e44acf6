import IntentBuild.Build.Run
import IntentBuild.Proofs.Operation.Runs

/-!
# The course of a build

The course of a build (`Build.course`) lists the stages that it runs, each with the workspace
before it and what came of it, and it keeps the plan at the end also when the build fails.  A build
goes through exactly the steps of its course (`run_eq_course`).

The stages of a course come in segments: each is the default sequence cut right after a refresh
that reported changed dependencies, and the last one is a prefix of the default sequence
(`shaped_follow`).
-/

namespace IntentBuild

open Op

/-- A stage that a build ran. -/
structure StageRun where
  /-- The stage. -/
  stage : Stage
  /-- The workspace before the stage. -/
  before : Workspace
  /-- What came of the stage. -/
  result : EStateM.Result Failure Workspace StageReport

/-- The stage reported changed dependencies. -/
def StageRun.changed (r : StageRun) : Bool :=
  match r.result with
  | .ok report _ => report.depsUpdated
  | .error .. => false

/-- The workspace that the stage left behind, whether it failed or not. -/
def StageRun.after (r : StageRun) : Workspace :=
  match r.result with
  | .ok _ w => w
  | .error _ w => w

/-- The stages that a build ran, and how it ended. -/
structure Course where
  /-- The stages, in the order in which they ran. -/
  runs : List StageRun
  /-- The plan at the end. -/
  plan : Plan
  /-- Whether the build completed. -/
  ending : EStateM.Result Failure Workspace Unit

/-- What an operation that follows a course gives: something about the plan at the end. -/
def Course.outcome {α : Type} (C : Course) (f : Plan → α) : EStateM.Result Failure Workspace α :=
  match C.ending with
  | .ok _ w => .ok (f C.plan) w
  | .error e w => .error e w

/-- The workspace that is left at the end. -/
def Course.last (C : Course) : Workspace :=
  match C.ending with
  | .ok _ w => w
  | .error _ w => w

namespace Build

/-! ## Following a plan -/

/-- The end of a build with some steps left. -/
def finish (settings : Settings) (left : Nat) (w : Workspace) :
    EStateM.Result Failure Workspace Unit :=
  if left < 2 then .error (.build (.steps settings.recursionLimit)) w else .ok ⟨⟩ w

/-- The course of a plan with some steps left. -/
def follow (settings : Settings) (c : BuildContext) : (left : Nat) → Plan → Workspace → Course
  | 0, p, w => ⟨[], p, .error (.build (.steps settings.recursionLimit)) w⟩
  | left + 1, p, w =>
      if w.cancelled then ⟨[], p, .error (.build (.cancelled "between stages")) w⟩
      else
        match p.pop with
        | (none, p) => ⟨[], p, finish settings left w⟩
        | (some stage, p) =>
            match (runStage c stage).run w with
            | .error e w' => ⟨[⟨stage, w, .error e w'⟩], p, .error e w'⟩
            | .ok r w' =>
                match afterStage settings.maxReplans p r with
                | (p, .error e) => ⟨[⟨stage, w, .ok r w'⟩], p, .error e w'⟩
                | (p, .ok false) => ⟨[⟨stage, w, .ok r w'⟩], p, finish settings left w'⟩
                | (p, .ok true) =>
                    let rest := follow settings c left p w'
                    { rest with runs := ⟨stage, w, .ok r w'⟩ :: rest.runs }

/-- The course of a build of a project with a plan. -/
def course (s : Services) (name : String) (plan : Plan) (w : Workspace) : Course :=
  match (start s name).run w with
  | .error e w' => ⟨[], plan, .error e w'⟩
  | .ok c w' => follow s.settings c (s.settings.recursionLimit - 1).toNat plan w'

theorem failIfCancelled_run (place : String) (w : Workspace) :
    (Work.failIfCancelled place).run w =
      if w.cancelled then .error (.build (.cancelled place)) w else .ok ⟨⟩ w := by
  change (if w.cancelled then throw (.build (.cancelled place)) else pure ⟨⟩ : Op Unit).run w = _
  split <;> rfl

theorem outcomeOf_ok {α : Type} {x : Op α} {a : α} {w w' : Workspace} (h : x.run w = .ok a w') :
    (outcomeOf x).run w = .ok (.ok a) w' :=
  tryCatch_ok (by rw [← bind_pure_comp, bind_ok h]; rfl)

theorem outcomeOf_error {α : Type} {x : Op α} {e : Failure} {w w' : Workspace}
    (h : x.run w = .error e w') : (outcomeOf x).run w = .ok (.error e) w' :=
  tryCatch_error (by rw [← bind_pure_comp, bind_error h])

section

variable {limit : Int} {c : BuildContext} {p q : Plan} {stage : Stage} {w w' : Workspace}

theorem advance_cancelled (hc : w.cancelled = true) :
    (advance limit c p).run w = .ok (p, .error (.build (.cancelled "between stages"))) w := by
  have hcancel := failIfCancelled_run "between stages" w
  rw [if_pos hc] at hcancel
  exact bind_ok (outcomeOf_error hcancel)

/-- Between the stages a build goes on unless it is cancelled. -/
theorem advance_eq (hc : w.cancelled = false) :
    (advance limit c p).run w =
      (match p.pop with
        | (none, p) => return (p, .ok false)
        | (some stage, p) => do
            match ← outcomeOf (runStage c stage) with
            | .error e => return (p, .error e)
            | .ok r => return afterStage limit p r : Op (Plan × Except Failure Bool)).run w := by
  have hcancel := failIfCancelled_run "between stages" w
  rw [if_neg (by simp [hc])] at hcancel
  exact bind_ok (outcomeOf_ok hcancel)

theorem advance_none (hc : w.cancelled = false) (hp : p.pop = (none, q)) :
    (advance limit c p).run w = .ok (q, .ok false) w := by
  rw [advance_eq hc, hp]
  rfl

theorem advance_error (hc : w.cancelled = false) (hp : p.pop = (some stage, q)) {e : Failure}
    (h : (runStage c stage).run w = .error e w') :
    (advance limit c p).run w = .ok (q, .error e) w' := by
  rw [advance_eq hc, hp]
  exact bind_ok (outcomeOf_error h)

theorem advance_ok (hc : w.cancelled = false) (hp : p.pop = (some stage, q)) {r : StageReport}
    (h : (runStage c stage).run w = .ok r w') :
    (advance limit c p).run w = .ok (afterStage limit q r) w' := by
  rw [advance_eq hc, hp]
  exact bind_ok (outcomeOf_ok h)

end

section

variable {settings : Settings} {c : BuildContext} {left : Nat} {p q q' : Plan} {stage : Stage}
  {w w' : Workspace}

theorem follow_cancelled (hc : w.cancelled = true) :
    follow settings c (left + 1) p w =
      ⟨[], p, .error (.build (.cancelled "between stages")) w⟩ := by
  rw [follow, if_pos hc]

theorem follow_none (hc : w.cancelled = false) (hp : p.pop = (none, q)) :
    follow settings c (left + 1) p w = ⟨[], q, finish settings left w⟩ := by
  rw [follow, if_neg (by simp [hc]), hp]

theorem follow_error (hc : w.cancelled = false) (hp : p.pop = (some stage, q)) {e : Failure}
    (h : (runStage c stage).run w = .error e w') :
    follow settings c (left + 1) p w = ⟨[⟨stage, w, .error e w'⟩], q, .error e w'⟩ := by
  rw [follow, if_neg (by simp [hc]), hp]
  simp only [h]

/-- After a stage that gave a report the plan says how to go on. -/
theorem follow_ok (hc : w.cancelled = false) (hp : p.pop = (some stage, q)) {r : StageReport}
    (h : (runStage c stage).run w = .ok r w') :
    follow settings c (left + 1) p w =
      match afterStage settings.maxReplans q r with
      | (p, .error e) => ⟨[⟨stage, w, .ok r w'⟩], p, .error e w'⟩
      | (p, .ok false) => ⟨[⟨stage, w, .ok r w'⟩], p, finish settings left w'⟩
      | (p, .ok true) => { follow settings c left p w' with
          runs := ⟨stage, w, .ok r w'⟩ :: (follow settings c left p w').runs } := by
  rw [follow, if_neg (by simp [hc]), hp]
  simp only [h]

end

theorem finish_eq (settings : Settings) (left : Nat) (p : Plan) (w : Workspace) :
    (if left < 2 then throw (.build (.steps settings.recursionLimit)) else return p : Op Plan).run w =
      (Course.mk [] p (finish settings left w)).outcome id := by
  unfold finish
  split <;> rfl

/-- A build takes the steps of its course from the plan on. -/
theorem advanceAll_eq_follow (settings : Settings) (c : BuildContext) (left : Nat) (p : Plan)
    (w : Workspace) :
    (advanceAll settings c left p).run w = (follow settings c left p w).outcome id := by
  induction left generalizing p w with
  | zero => rfl
  | succ left ih =>
      rw [advanceAll]
      by_cases hc : w.cancelled = true
      · rw [bind_ok (advance_cancelled hc), follow_cancelled hc]
        rfl
      rw [Bool.not_eq_true] at hc
      rcases hp : p.pop with ⟨_ | stage, q⟩
      · rw [bind_ok (advance_none hc hp), follow_none hc hp]
        exact finish_eq ..
      · cases hrun : (runStage c stage).run w with
        | error e w' =>
            rw [bind_ok (advance_error hc hp hrun), follow_error hc hp hrun]
            rfl
        | ok r w' =>
            rw [bind_ok (advance_ok hc hp hrun), follow_ok hc hp hrun]
            rcases afterStage settings.maxReplans q r with ⟨q', e | _ | _⟩
            · rfl
            · exact finish_eq ..
            · exact ih ..

/-- A build goes through its course. -/
theorem run_eq_course {s : Services} {name : String} {plan : Plan} {w : Workspace} :
    (run s name plan).run w =
      match (start s name).run w with
      | .error e w' => .error e w'
      | .ok c _ => (course s name plan w).outcome (BuildSummary.ofPlan c.project.node.name) := by
  rw [course]
  cases hs : (start s name).run w with
  | error e w' => exact bind_error hs
  | ok c w' =>
      refine (bind_ok hs).trans ?_
      have hall := advanceAll_eq_follow s.settings c (s.settings.recursionLimit - 1).toNat plan w'
      unfold Course.outcome at hall ⊢
      cases he : (follow s.settings c (s.settings.recursionLimit - 1).toNat plan w').ending with
      | error e w'' =>
          rw [he] at hall
          exact bind_error hall
      | ok u w'' =>
          rw [he] at hall
          exact bind_ok hall

end Build

namespace Build

/-- A build leaves behind what its course leaves. -/
theorem after_run (s : Services) (name : String) (plan : Plan) (w : Workspace) :
    (run s name plan).after w = (course s name plan w).last := by
  unfold Op.after
  rw [run_eq_course]
  cases hs : (start s name).run w with
  | error e w' => simp only [course, hs, Course.last]
  | ok c w' =>
      dsimp only
      unfold Course.outcome Course.last
      cases (course s name plan w).ending <;> rfl

theorem last_finish (runs : List StageRun) (p : Plan) (settings : Settings) (left : Nat)
    (w : Workspace) : (Course.mk runs p (finish settings left w)).last = w := by
  unfold finish
  by_cases h : left < 2
  · rw [if_pos h, Course.last]
  · rw [if_neg h, Course.last]

/-- What every stage keeps, a course keeps.  The condition may depend on something that is told
from the runs so far. -/
theorem follow_keeps {σ : Type} {settings : Settings} {c : BuildContext} {I : σ → Workspace → Prop}
    {g : σ → StageRun → σ} {G : StageRun → Prop} {left : Nat} {p : Plan} {w : Workspace}
    (hstep : ∀ {m r}, r.result = (runStage c r.stage).run r.before → G r → I m r.before →
      I (g m r) r.after)
    (hG : ∀ r ∈ (follow settings c left p w).runs, G r) {m : σ} (h : I m w) :
    I ((follow settings c left p w).runs.foldl g m) (follow settings c left p w).last := by
  induction left generalizing m p w with
  | zero => exact h
  | succ left ih =>
      by_cases hc : w.cancelled = true
      · rw [follow_cancelled hc]
        exact h
      rw [Bool.not_eq_true] at hc
      rcases hp : p.pop with ⟨_ | stage, q⟩
      · rw [follow_none hc hp, last_finish]
        exact h
      · cases hrun : (runStage c stage).run w with
        | error e w' =>
            rw [follow_error hc hp hrun] at hG ⊢
            exact hstep (r := ⟨stage, w, .error e w'⟩) hrun.symm (hG _ (.head _)) h
        | ok r w' =>
            rw [follow_ok hc hp hrun] at hG ⊢
            rcases hnext : afterStage settings.maxReplans q r with ⟨q', e | _ | _⟩
            · rw [hnext] at hG
              exact hstep (r := ⟨stage, w, .ok r w'⟩) hrun.symm (hG _ (.head _)) h
            · rw [hnext] at hG
              rw [last_finish]
              exact hstep (r := ⟨stage, w, .ok r w'⟩) hrun.symm (hG _ (.head _)) h
            · rw [hnext] at hG
              obtain ⟨hfirst, hrest⟩ := List.forall_mem_cons.mp hG
              exact ih hrest (hstep (r := ⟨stage, w, .ok r w'⟩) hrun.symm hfirst h)

end Build

/-! ## Plans -/

namespace Plan

variable {p : Plan} {stage : Stage} {rest : List Stage}

theorem pop_of_nil (h : p.pending = []) : p.pop = (none, p) := by
  rw [pop, List.getElem?_eq_none (List.drop_eq_nil_iff.mp h)]

/-- Taking the next stage leaves the rest. -/
theorem pop_of_cons (h : p.pending = stage :: rest) :
    ∃ q, p.pop = (some stage, q) ∧ q.pending = rest ∧ q.cursor ≤ q.stages.length ∧
      q.replans = p.replans := by
  have hlt : p.cursor < p.stages.length := Nat.lt_of_not_le fun hn => by
    rw [pending, List.drop_eq_nil_iff.mpr hn] at h
    cases h
  rw [pending, List.drop_eq_getElem_cons hlt, List.cons.injEq] at h
  refine ⟨{ p with cursor := p.cursor + 1 }, ?_, h.2, hlt, rfl⟩
  rw [pop, List.getElem?_eq_getElem hlt, h.1]

/-- After planning anew the whole default sequence is to run. -/
theorem pending_replan (h : p.cursor ≤ p.stages.length) : p.replan.pending = defaultStages := by
  rw [pending, replan, List.drop_append_of_le_length (by simp [h])]
  simp

end Plan

namespace Build

theorem afterStage_unchanged {limit : Int} {p : Plan} {r : StageReport}
    (hr : r.depsUpdated = false) :
    afterStage limit p r = (p.report r, .ok (!p.pending.isEmpty)) := by
  rw [afterStage, hr]
  rfl

theorem afterStage_restless {limit : Int} {p : Plan} {r : StageReport} (hr : r.depsUpdated = true)
    (h : limit ≤ p.replans) :
    afterStage limit p r = (p.report r, .error (.build (.restless p.replans))) := by
  rw [afterStage, hr]
  exact if_pos h

/-- Changed dependencies ask for a new plan. -/
theorem afterStage_changed {limit : Int} {p : Plan} {r : StageReport} (hr : r.depsUpdated = true)
    (h : ¬ limit ≤ p.replans) (hp : p.cursor ≤ p.stages.length) :
    afterStage limit p r = ((p.report r).replan, .ok true) := by
  have hpending : (p.report r).replan.pending = Plan.defaultStages :=
    Plan.pending_replan (p := p.report r) hp
  rw [afterStage, hr, if_pos rfl]
  refine (if_neg h).trans ?_
  rw [hpending]
  rfl

/-- A stage that only runs units changes no dependencies that were written. -/
theorem depsUpdated_of_units {ρ : Type} {stage : Stage} {works : Op (List (Work ρ))} {n : Runner}
    {r : StageReport} {w w' : Workspace}
    (h : (do return .ofUnits stage (← Work.runAll (← works) n) : Op StageReport).run w = .ok r w') :
    r.depsUpdated = false := by
  obtain ⟨us, w₁, -, h⟩ := bind_eq_ok.mp h
  obtain ⟨rs, w₂, -, h⟩ := bind_eq_ok.mp h
  cases h
  rfl

/-- Only a refresh reports changed dependencies. -/
theorem eq_refresh_of_depsUpdated {c : BuildContext} {stage : Stage} {r : StageReport}
    {w w' : Workspace} (h : (runStage c stage).run w = .ok r w') (hr : r.depsUpdated = true) :
    stage = .refresh := by
  cases stage with
  | refresh => rfl
  | techStack =>
      obtain ⟨files, w₁, -, h⟩ := bind_eq_ok.mp h
      split at h
      · cases h
        cases hr
      · obtain ⟨file, w₂, -, h⟩ := bind_eq_ok.mp h
        obtain ⟨tool, w₃, -, h⟩ := bind_eq_ok.mp h
        obtain ⟨rs, w₄, -, h⟩ := bind_eq_ok.mp h
        cases h
        cases hr
      · cases h
  | lowering => exact absurd hr (Bool.eq_false_iff.mp (depsUpdated_of_units h))
  | indexing => exact absurd hr (Bool.eq_false_iff.mp (depsUpdated_of_units h))
  | compilation => exact absurd hr (Bool.eq_false_iff.mp (depsUpdated_of_units h))

end Build

/-! ## Segments -/

/-- The stages of some runs. -/
abbrev Course.stages (rs : List StageRun) : List Stage := rs.map StageRun.stage

/-- A segment that was cut: the default sequence up to a refresh that reported a change. -/
structure Course.Cut (rs : List StageRun) : Prop where
  /-- The stages begin the default sequence. -/
  isPrefix : Course.stages rs <+: Plan.defaultStages
  /-- The last one is a refresh that reported a change. -/
  refreshed : ∃ r, rs.getLast? = some r ∧ r.stage = .refresh ∧ r.changed = true

/-- The runs of a course, split into segments. -/
structure Course.Split (rs : List StageRun) (front : List (List StageRun))
    (last : List StageRun) : Prop where
  /-- The segments stand in a row. -/
  eq : rs = front.flatten ++ last
  /-- All but the last one were cut. -/
  cut : ∀ seg ∈ front, Course.Cut seg
  /-- The last one begins the default sequence. -/
  isPrefix : Course.stages last <+: Plan.defaultStages

namespace Course.Split

variable {rs : List StageRun} {front : List (List StageRun)} {last : List StageRun}

theorem single (h : stages rs <+: Plan.defaultStages) : Split rs [] rs :=
  ⟨rfl, nofun, h⟩

theorem cons {seg : List StageRun} (hseg : Cut seg) (h : Split rs front last) :
    Split (seg ++ rs) (seg :: front) last where
  eq := by rw [h.eq, List.flatten_cons, List.append_assoc]
  cut := List.forall_mem_cons.mpr ⟨hseg, h.cut⟩
  isPrefix := h.isPrefix

/-- No segment is longer than the default sequence. -/
theorem length_le (h : Split rs front last) :
    rs.length ≤ Plan.defaultStages.length * (front.length + 1) := by
  have hseg {seg : List StageRun} (hs : stages seg <+: Plan.defaultStages) :
      seg.length ≤ Plan.defaultStages.length := by
    simpa using hs.length_le
  have hfront : front.flatten.length ≤ Plan.defaultStages.length * front.length := by
    have hcut := h.cut
    clear h
    induction front with
    | nil => simp
    | cons seg front ih =>
        obtain ⟨hs, hf⟩ := List.forall_mem_cons.mp hcut
        rw [List.flatten_cons, List.length_append, List.length_cons, Nat.mul_succ, Nat.add_comm]
        exact Nat.add_le_add (ih hf) (hseg hs.isPrefix)
  rw [h.eq, List.length_append, Nat.mul_succ]
  exact Nat.add_le_add hfront (hseg h.isPrefix)

end Course.Split

/-- What a course from a plan on says about the whole build, where the runs of the current segment
so far are given. -/
structure Course.Shaped (limit : Int) (sofar : List StageRun) (planned : Nat) (C : Course)
    (front : List (List StageRun)) (last : List StageRun) : Prop where
  /-- The runs, with those so far, come in segments. -/
  split : Course.Split (sofar ++ C.runs) front last
  /-- The build was planned anew after every segment but the last. -/
  replans : C.plan.replans = planned + front.length
  /-- The limit is kept. -/
  limited : planned ≤ limit.toNat → C.plan.replans ≤ limit.toNat
  /-- When the build completes, the last segment is whole, and reported no change. -/
  settled : ∀ {w}, C.ending = .ok ⟨⟩ w →
    Course.stages last = Plan.defaultStages ∧ ∀ r ∈ last, r.changed = false

namespace Build

variable {settings : Settings} {c : BuildContext} {left : Nat} {p q : Plan} {w w' : Workspace}
  {sofar : List StageRun}

/-- A course that ends at once leaves the runs so far as its last segment. -/
theorem shaped_end {limit : Int} {runs : List StageRun} {n : Nat}
    {ending : EStateM.Result Failure Workspace Unit}
    (hp : Course.stages (sofar ++ runs) <+: Plan.defaultStages) (hn : q.replans = n)
    (hend : ∀ {w}, ending = .ok ⟨⟩ w → Course.stages (sofar ++ runs) = Plan.defaultStages ∧
      ∀ r ∈ sofar ++ runs, r.changed = false) :
    Course.Shaped limit sofar n ⟨runs, q, ending⟩ [] (sofar ++ runs) where
  split := .single hp
  replans := hn
  limited h := hn ▸ h
  settled := hend

/-- A stage that reported a change, with a new plan after it, cuts its segment. -/
theorem shaped_cut {limit : Int} {run : StageRun} {runs : List StageRun} {m n : Nat}
    {front : List (List StageRun)} {last : List StageRun}
    {ending : EStateM.Result Failure Workspace Unit} (hseg : Course.Cut (sofar ++ [run]))
    (hn : ¬ limit ≤ n) (hm : m = n + 1)
    (h : Course.Shaped limit [] m ⟨runs, q, ending⟩ front last) :
    Course.Shaped limit sofar n ⟨run :: runs, q, ending⟩ ((sofar ++ [run]) :: front) last where
  split := by
    rw [List.append_cons]
    exact h.split.cons hseg
  replans := by
    rw [h.replans, hm, List.length_cons]
    omega
  limited _ := h.limited (by omega)
  settled := h.settled

/-- The course from a plan on comes in segments, when the runs so far and the stages that are still
to run make up the default sequence. -/
theorem shaped_follow (hp : Course.stages sofar ++ p.pending = Plan.defaultStages)
    (hq : ∀ r ∈ sofar, r.changed = false) :
    ∃ front last, (follow settings c left p w).Shaped settings.maxReplans sofar p.replans front
      last := by
  induction left generalizing p w sofar with
  | zero =>
      refine ⟨[], _, shaped_end ?_ rfl nofun⟩
      rw [List.append_nil, ← hp]
      exact List.prefix_append ..
  | succ left ih =>
      by_cases hc : w.cancelled = true
      · rw [follow_cancelled hc]
        refine ⟨[], _, shaped_end ?_ rfl nofun⟩
        rw [List.append_nil, ← hp]
        exact List.prefix_append ..
      rw [Bool.not_eq_true] at hc
      cases hpending : p.pending with
      | nil =>
          rw [hpending, List.append_nil] at hp
          rw [follow_none hc (Plan.pop_of_nil hpending)]
          refine ⟨[], _, shaped_end ?_ rfl fun _ => ?_⟩
          · exact ⟨[], by rw [List.append_nil, List.append_nil, hp]⟩
          · rw [List.append_nil]
            exact ⟨hp, hq⟩
      | cons stage rest =>
          obtain ⟨q, hpop, hrest, hcursor, hreplans⟩ := Plan.pop_of_cons hpending
          have hstages {run : StageRun} (hs : run.stage = stage) :
              Course.stages (sofar ++ [run]) ++ rest = Plan.defaultStages := by
            rw [← hp, hpending, Course.stages, List.map_append, List.append_assoc, ← hs]
            rfl
          have hbegins {run : StageRun} (hs : run.stage = stage) :
              Course.stages (sofar ++ [run]) <+: Plan.defaultStages :=
            hstages hs ▸ List.prefix_append ..
          cases hrun : (runStage c stage).run w with
          | error e w' =>
              rw [follow_error hc hpop hrun]
              exact ⟨[], _, shaped_end (hbegins rfl) hreplans nofun⟩
          | ok r w' =>
              rw [follow_ok hc hpop hrun]
              by_cases hr : r.depsUpdated = true
              · by_cases hlimit : settings.maxReplans ≤ q.replans
                · rw [afterStage_restless hr hlimit]
                  exact ⟨[], _, shaped_end (hbegins rfl) hreplans nofun⟩
                · rw [afterStage_changed hr hlimit hcursor]
                  have hagain : Course.stages [] ++ (q.report r).replan.pending =
                      Plan.defaultStages :=
                    Plan.pending_replan (p := q.report r) hcursor
                  obtain ⟨front, last, h⟩ := ih (p := (q.report r).replan) (w := w') hagain
                    (fun _ h => nomatch h)
                  have hcut : Course.Cut (sofar ++ [⟨stage, w, .ok r w'⟩]) :=
                    ⟨hbegins rfl, _, List.getLast?_concat .., eq_refresh_of_depsUpdated hrun hr, hr⟩
                  exact ⟨_, last, shaped_cut hcut (hreplans ▸ hlimit)
                    (congrArg (· + 1) hreplans) h⟩
              · rw [Bool.not_eq_true] at hr
                rw [afterStage_unchanged hr]
                have hquiet : ∀ run ∈ sofar ++ [⟨stage, w, .ok r w'⟩], run.changed = false := by
                  intro run hmem
                  rcases List.mem_append.mp hmem with hmem | hmem
                  · exact hq run hmem
                  · rw [List.mem_singleton.mp hmem]
                    exact hr
                have hgo : Course.stages (sofar ++ [⟨stage, w, .ok r w'⟩]) ++ rest =
                    Plan.defaultStages := hstages rfl
                rw [hrest]
                cases rest with
                | nil =>
                    rw [List.append_nil] at hgo
                    exact ⟨[], _, shaped_end (hbegins rfl) hreplans fun _ => ⟨hgo, hquiet⟩⟩
                | cons next rest =>
                    rw [← hrest] at hgo
                    obtain ⟨front, last, h⟩ := ih (p := q.report r) (w := w') hgo hquiet
                    refine ⟨front, last, ?_, hreplans ▸ h.replans, hreplans ▸ h.limited, h.settled⟩
                    have hsplit := h.split
                    rwa [List.append_assoc] at hsplit

/-- The course of the default plan comes in segments, also when the build cannot start. -/
theorem shaped_course (s : Services) (name : String) (w : Workspace) :
    ∃ front last, (course s name .default w).Shaped s.settings.maxReplans [] 0 front last := by
  rw [course]
  cases (start s name).run w with
  | error e w' => exact ⟨[], _, shaped_end (List.nil_prefix ..) rfl nofun⟩
  | ok c w' =>
      have hp : Course.stages [] ++ Plan.default.pending = Plan.defaultStages := rfl
      exact shaped_follow hp fun _ h => nomatch h

/-! ## Stages in a row -/

/-- The stages ran one after the other, from a workspace to a workspace, and none failed. -/
inductive Chained (c : BuildContext) : Workspace → List StageRun → Workspace → Prop
  | nil (w : Workspace) : Chained c w [] w
  | cons {w w₁ w₂ : Workspace} {stage : Stage} {r : StageReport} {rs : List StageRun}
      (h : (runStage c stage).run w = .ok r w₁) (rest : Chained c w₁ rs w₂) :
      Chained c w (⟨stage, w, .ok r w₁⟩ :: rs) w₂

theorem Chained.append {w₁ w₂ : Workspace} {rs rs' : List StageRun}
    (h : Chained c w₁ (rs ++ rs') w₂) : ∃ w, Chained c w₁ rs w ∧ Chained c w rs' w₂ := by
  induction rs generalizing w₁ with
  | nil => exact ⟨w₁, .nil w₁, h⟩
  | cons r rs ih =>
      cases h with
      | cons hr h =>
          obtain ⟨w, h₁, h₂⟩ := ih h
          exact ⟨w, .cons hr h₁, h₂⟩

theorem finish_eq_ok (h : finish settings left w = .ok ⟨⟩ w') : w' = w := by
  unfold finish at h
  split at h
  · cases h
  · cases h
    rfl

/-- A build that completes has run its stages one after the other. -/
theorem chained_follow (h : (follow settings c left p w).ending = .ok ⟨⟩ w') :
    Chained c w (follow settings c left p w).runs w' := by
  induction left generalizing p w with
  | zero => cases h
  | succ left ih =>
      by_cases hc : w.cancelled = true
      · rw [follow_cancelled hc] at h
        cases h
      rw [Bool.not_eq_true] at hc
      rcases hp : p.pop with ⟨_ | stage, q⟩
      · rw [follow_none hc hp] at h ⊢
        rw [finish_eq_ok h]
        exact .nil w
      · cases hrun : (runStage c stage).run w with
        | error e w₁ =>
            rw [follow_error hc hp hrun] at h
            cases h
        | ok r w₁ =>
            rw [follow_ok hc hp hrun] at h ⊢
            rcases hnext : afterStage settings.maxReplans q r with ⟨q', e | _ | _⟩
            · rw [hnext] at h
              cases h
            · rw [hnext] at h
              rw [finish_eq_ok h]
              exact .cons hrun (.nil w₁)
            · rw [hnext] at h
              exact .cons hrun (ih h)

theorem Chained.reported {rs : List StageRun} (h : Chained c w rs w') :
    ∀ r ∈ rs, ∃ report w₁, r.result = .ok report w₁ := by
  induction h with
  | nil => exact fun _ hr => absurd hr List.not_mem_nil
  | @cons w w₁ _ stage r rest hr _ ih =>
      intro run hrun
      rcases List.mem_cons.mp hrun with rfl | hrun
      · exact ⟨r, w₁, rfl⟩
      · exact ih run hrun

/-- All stages of a build that completes gave their reports. -/
theorem reported_of_run {s : Services} {name : String} {plan : Plan} {summary : BuildSummary}
    (h : (run s name plan).run w = .ok summary w') :
    ∀ r ∈ (course s name plan w).runs, ∃ report w₁, r.result = .ok report w₁ := by
  rw [run_eq_course] at h
  unfold course at h ⊢
  cases hstart : (start s name).run w with
  | error e w₀ => rw [hstart] at h; cases h
  | ok c w₀ =>
      rw [hstart] at h
      dsimp only at h ⊢
      unfold Course.outcome at h
      split at h
      · exact (chained_follow ‹_›).reported
      · cases h

/-- The first stage of a row. -/
theorem Chained.first {rs : List StageRun} {stage : Stage} {more : List Stage}
    (h : Chained c w rs w')
    (hs : Course.stages rs = stage :: more) :
    ∃ r w₁ rest, rs = ⟨stage, w, .ok r w₁⟩ :: rest ∧ (runStage c stage).run w = .ok r w₁ ∧
      Chained c w₁ rest w' ∧ Course.stages rest = more := by
  cases h with
  | nil => cases hs
  | @cons _ w₁ _ _ r rest hr h =>
      injection hs with hstage hmore
      subst hstage
      exact ⟨r, w₁, rest, rfl, hr, h, hmore⟩

/-- The stages of a default sequence, each with the workspace that it left. -/
structure Sequence (c : BuildContext) (w w₁ w₂ w₃ w₄ w₅ w' : Workspace) : Prop where
  /-- The tech stack was resolved. -/
  techStack : ∃ r, (runStage c .techStack).run w = .ok r w₁
  /-- The specifications were lowered. -/
  lowering : ∃ r, (runStage c .lowering).run w₁ = .ok r w₂
  /-- The dependencies were refreshed for the first time. -/
  firstRefresh : ∃ r, (runStage c .refresh).run w₂ = .ok r w₃
  /-- The intent files were indexed. -/
  indexing : ∃ r, (runStage c .indexing).run w₃ = .ok r w₄
  /-- The intent files were compiled. -/
  compilation : ∃ r, (runStage c .compilation).run w₄ = .ok r w₅
  /-- The dependencies were refreshed for the second time. -/
  lastRefresh : ∃ r, (runStage c .refresh).run w₅ = .ok r w'

theorem sequence_of_chained {rs : List StageRun} (h : Chained c w rs w')
    (hs : Course.stages rs = Plan.defaultStages) :
    ∃ w₁ w₂ w₃ w₄ w₅, Sequence c w w₁ w₂ w₃ w₄ w₅ w' := by
  obtain ⟨r₁, w₁, rest, -, h₁, h, hs⟩ := h.first hs
  obtain ⟨r₂, w₂, rest, -, h₂, h, hs⟩ := h.first hs
  obtain ⟨r₃, w₃, rest, -, h₃, h, hs⟩ := h.first hs
  obtain ⟨r₄, w₄, rest, -, h₄, h, hs⟩ := h.first hs
  obtain ⟨r₅, w₅, rest, -, h₅, h, hs⟩ := h.first hs
  obtain ⟨r₆, w₆, rest, -, h₆, h, hs⟩ := h.first hs
  obtain rfl := List.map_eq_nil_iff.mp hs
  cases h
  exact ⟨w₁, w₂, w₃, w₄, w₅, ⟨r₁, h₁⟩, ⟨r₂, h₂⟩, ⟨r₃, h₃⟩, ⟨r₄, h₄⟩, ⟨r₅, h₅⟩, r₆, h₆⟩

/-- A build of the default plan that completes ends with a whole default sequence. -/
theorem run_eq_ok {s : Services} {name : String} {summary : BuildSummary}
    (h : (run s name .default).run w = .ok summary w') : ∃ c w₀ v front,
      (start s name).run w = .ok c w₀ ∧ Chained c w₀ front v ∧
        ∃ w₁ w₂ w₃ w₄ w₅, Sequence c v w₁ w₂ w₃ w₄ w₅ w' := by
  obtain ⟨front, last, hshaped⟩ := shaped_course s name w
  rw [run_eq_course] at h
  cases hstart : (start s name).run w with
  | error e w₀ => rw [hstart] at h; cases h
  | ok c w₀ =>
      rw [hstart] at h
      have hcourse : course s name .default w =
          follow s.settings c (s.settings.recursionLimit - 1).toNat .default w₀ := by
        rw [course, hstart]
      dsimp only at h
      unfold Course.outcome at h
      cases hend : (course s name .default w).ending with
      | error e w₁ => rw [hend] at h; cases h
      | ok u w₁ =>
          rw [hend] at h
          cases h
          have hchain := chained_follow (hcourse ▸ hend)
          rw [← hcourse, show (course s name .default w).runs = front.flatten ++ last from
            hshaped.split.eq] at hchain
          obtain ⟨v, hbefore, hlast⟩ := hchain.append
          exact ⟨c, w₀, v, _, rfl, hbefore,
            sequence_of_chained hlast (hshaped.settled hend).1⟩

/-! ## Builds that complete -/

variable {ss ss' : List Stage} {w₁ w₂ : Workspace}

/-- The stages run in order, from a workspace to a workspace.  None fails or changes the dependencies, and
the build is not cancelled before any of them. -/
inductive Smooth (c : BuildContext) : Workspace → List Stage → Workspace → Prop
  | nil (w : Workspace) : Smooth c w [] w
  | cons {w w₁ w₂ : Workspace} {s : Stage} {ss : List Stage} {r : StageReport} (hc : w.cancelled = false)
      (h : (runStage c s).run w = .ok r w₁) (hr : r.depsUpdated = false) (rest : Smooth c w₁ ss w₂) :
      Smooth c w (s :: ss) w₂

theorem Smooth.append (h : Smooth c w ss w₁) (h' : Smooth c w₁ ss' w₂) : Smooth c w (ss ++ ss') w₂ := by
  induction h with
  | nil => exact h'
  | cons hc hrun hr _ ih => exact .cons hc hrun hr (ih h')

/-- Where the stages of a plan run in order, the build comes to its end, if it has steps enough. -/
theorem Smooth.follow (h : Smooth c w ss w₁) (hne : ss ≠ []) (hp : p.pending = ss)
    (hleft : ss.length + 2 ≤ left) : (follow settings c left p w).ending = .ok ⟨⟩ w₁ := by
  induction h generalizing p left with
  | nil => exact absurd rfl hne
  | @cons w v w₁ s ss r hc hrun hr rest ih =>
      obtain ⟨q, hpop, hrest, -, -⟩ := Plan.pop_of_cons hp
      rw [List.length_cons] at hleft
      obtain ⟨left, rfl⟩ := Nat.exists_eq_add_of_lt (Nat.lt_of_lt_of_le (Nat.succ_pos _) hleft)
      rw [Nat.zero_add] at hleft ⊢
      rw [follow_ok hc hpop hrun, afterStage_unchanged hr, hrest]
      cases rest with
      | nil =>
          have hfinish : finish settings left v = .ok ⟨⟩ v := if_neg (by simp at hleft; omega)
          exact hfinish
      | cons hc' hrun' hr' rest =>
          exact ih (List.cons_ne_nil _ _) hrest (by omega)

/-- A build whose stages run in order completes. -/
theorem Smooth.run {sv : Services} {name : String} {plan : Plan} (h : Smooth c w₁ plan.pending w₂)
    (hne : plan.pending ≠ []) (hs : (start sv name).run w = .ok c w₁)
    (hleft : plan.pending.length + 2 ≤ (sv.settings.recursionLimit - 1).toNat) :
    ∃ summary, (run sv name plan).run w = .ok summary w₂ := by
  have hend : (Build.follow sv.settings c (sv.settings.recursionLimit - 1).toNat plan w₁).ending =
      .ok ⟨⟩ w₂ := h.follow hne rfl hleft
  rw [run_eq_course, hs]
  dsimp only
  rw [Course.outcome, course, hs]
  dsimp only
  rw [hend]
  exact ⟨_, rfl⟩

/-- A build runs as many units at a time as the settings allow. -/
theorem concurrency_of_start {s : Services} {name : String} (h : (start s name).run w = .ok c w') :
    (c.runner.concurrency : Int) = s.settings.maxConcurrency := by
  obtain ⟨project, w₁, -, h₁⟩ := bind_eq_ok.mp h
  have hprepare : (prepare s project).run w₁ = .ok c w' := by
    split at h₁
    · cases h₁
    · exact h₁
  obtain ⟨_, w₂, -, h₂⟩ := bind_eq_ok.mp hprepare
  obtain ⟨_, w₃, -, h₃⟩ := bind_eq_ok.mp h₂
  obtain ⟨r, w₄, hrunner, h₄⟩ := bind_eq_ok.mp h₃
  cases h₄
  unfold runner at hrunner
  cases hcache : Cache.withLimit s.settings.historyLimit with
  | error e => rw [hcache] at hrunner; cases hrunner
  | ok cache =>
      rw [hcache] at hrunner
      by_cases hlow : s.settings.maxConcurrency < 1
      · simp only [bind, Except.bind, if_pos hlow] at hrunner
        cases hrunner
      · simp only [bind, Except.bind, if_neg hlow] at hrunner
        cases hrunner
        exact Int.toNat_of_nonneg (by omega)

end Build

end IntentBuild
