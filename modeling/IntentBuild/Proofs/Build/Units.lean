import IntentBuild.Proofs.Build.Rows
import IntentBuild.Proofs.Operation.Safe

/-!
# What units of work change

A unit fits a regime when its prompt, its node and the steps to apply every result that passes
the check are safe in it.  In a regime that admits records and stamps, the run of a unit that fits
is safe (`Work.Fits.run`): what is applied has passed the check, whether it comes from the cache or
from the model (`Work.runs_obtain`).  So is a row of such units, whatever the schedule is
(`Work.safe_runAll`).
-/

namespace IntentBuild

open Op

variable {R : Regime} {ρ : Type}

/-- The regime admits the change of a node whose content stays. -/
structure Regime.Keeps (R : Regime) : Prop where
  /-- A node is stamped. -/
  keep : ∀ old new, new.key = old.key → new.members = old.members → new.content = old.content →
    R.admits (.content old new)

/-- The structured content stays where it is left alone. -/
theorem Graph.Revised.members_eq {content : Change String} {stamp : Change Stamp} {old new : Node}
    (hr : Graph.Revised content .keep stamp old new) : new.members = old.members := by
  rw [Node.members, hr.json]
  rfl

/-- The regime admits what every unit changes: calls of the model, records, and the time of the
input of a node. -/
structure Regime.Records (R : Regime) : Prop extends R.Keeps where
  /-- The model is called. -/
  calls : R.admits .calls
  /-- A record is stored. -/
  record : ∀ r, R.admits (.record r)
  /-- A record is dropped. -/
  dropRecord : ∀ r, R.admits (.dropRecord r)

theorem Regime.records_any : Regime.any.Records where
  keep _ _ _ _ _ := trivial
  calls := trivial
  record _ := trivial
  dropRecord _ := trivial

namespace Work

theorem reader_failIfCancelled (place : String) : Reader (failIfCancelled place) :=
  Reader.get.bind fun _ => .ite (.throw _) (.pure _)

theorem safe_send (hR : R.admits .calls) (endpoint : Endpoint) (c : Call) :
    Safe R (send endpoint c) :=
  ⟨fun w _ _ => ⟨.single (.inr hR) (.calls w _ _) rfl rfl, trivial⟩⟩

/-- What the model gives is the result that one of its answers to the prompt was judged to give. -/
theorem runs_generateFrom (hR : R.admits .calls) (u : Work ρ) (endpoint : Endpoint)
    (prompt : String) (left : Nat) : ∀ (checked : Nat) (reasons : List Rejection) (w : Workspace),
      Runs R.admits w (u.generateFrom endpoint prompt left checked reasons) fun p _ =>
        ∃ calls n, (u.judge n (endpoint calls (Call.ofPrompt u.tool u.role prompt)).outcome).outcome =
          .ok p.1 := by
  induction left with
  | zero =>
      exact fun _ _ w => (runs_notify _).bind fun _ _ _ _ _ => .throw _
  | succ left ih =>
      intro checked reasons w
      refine .reader (reader_failIfCancelled _) fun _ _ => ?_
      have hattempt : Runs R.admits w (u.attempt endpoint prompt checked) fun a _ =>
          ∃ calls, a =
            u.judge checked (endpoint calls (Call.ofPrompt u.tool u.role prompt)).outcome := by
        intro hw
        exact ⟨.single (.inr hR) (.calls w _ _) rfl rfl, w.calls, rfl⟩
      refine hattempt.bind fun a w' _ _ ha => ?_
      obtain ⟨calls, rfl⟩ := ha
      split
      · rename_i r hr
        exact .pure ⟨calls, checked, hr⟩
      · exact (runs_notify _).bind fun _ _ _ _ _ => ih _ _ _

/-- What a record gives is the result that its members read as, which has passed the check. -/
theorem ofRecord_eq_some {u : Work ρ} {o : Option GenerationRecord} {a : ρ} {n : Nat}
    (h : u.ofRecord o = (some a, n)) : ∃ r ms, o = some r ∧ r.json = some ms ∧
      Reply.validate u.schema (.obj ms) = .ok a ∧ u.check 0 a = .ok () := by
  unfold ofRecord at h
  split at h
  · cases h
  · rename_i r
    split at h
    · cases h
    · rename_i ms hms
      split at h
      · cases h
      · rename_i a' ha
        split at h
        · cases h
        · rename_i hc
          cases h
          exact ⟨r, ms, rfl, hms, ha, hc⟩

/-- A result from the cache has passed the check. -/
theorem runs_cached {A : Event → Prop} (u : Work ρ) (cache : Cache) (n : Node) (stale : Bool)
    (prompt : String) (w : Workspace) :
    Runs A w (u.cached cache n stale prompt) fun p _ =>
      ∀ a, p.1 = some a → u.check 0 a = .ok () := by
  refine .ite (fun _ => .pure nofun) fun _ => ?_
  have hlookup : Safe (.only A) (cache.lookup n u.tool.toolId prompt) := cache.safe_lookup ..
  refine (hlookup.runs w trivial).bind fun record _ _ _ _ => .pure fun a ha => ?_
  obtain ⟨_, _, -, -, -, hc⟩ := ofRecord_eq_some (Prod.ext ha rfl)
  exact hc

/-- A result has passed the check, whether it comes from the cache or from the model.  A record is
stored only for a result that was not in the cache and was generated. -/
theorem runs_obtain {A : Event → Prop} (hC : A .calls) (hD : ∀ q, A (.dropRecord q)) {u : Work ρ}
    {r : Runner} {n : Node} {stale : Bool} {prompt : String} {w : Workspace}
    (hR : ∀ {checked w₁ a attempts w₂ q}, (u.cached r.cache n stale prompt).run w = .ok (none, checked) w₁ →
      (u.generate r.endpoint prompt checked).run w₁ = .ok (a, attempts) w₂ →
      Cache.Stored r.cache.digest n.id u.tool.toolId prompt a.text
        (u.schema.toJson a.result).members? q → A (.record q)) :
    Runs A w (u.obtain r n stale prompt) fun p _ => ∃ n, u.check n p.1 = .ok () := by
  refine (runs_cached u r.cache n stale prompt w).and_run.bind fun p w₁ _ _ hp => ?_
  obtain ⟨_ | a, checked⟩ := p
  · have hgenerate :=
      runs_generateFrom (R := .only A) hC u r.endpoint prompt attemptBudget checked [] w₁
    refine hgenerate.and_run.bind fun g w₂ _ _ hg => ?_
    obtain ⟨a, attempts⟩ := g
    obtain ⟨hrun, calls, n, hjudged⟩ := hg
    have hstore : Safe (.only A) (r.cache.store _ u.tool.toolId prompt a.text
        (u.schema.toJson a.result).members?) := Cache.safe_store (fun q hq => hR hp.1 hrun hq) hD
    exact (hstore.runs w₂ trivial).bind fun _ _ _ _ _ => .pure ⟨n, check_of_judge hjudged⟩
  · exact .pure ⟨0, hp.2 a rfl⟩

theorem safe_surface (label : String) (d : Diagnostics) : Safe R (surface label d) :=
  .bind (.forIn fun _ _ => .once (safe_notify _)) fun _ =>
    .bind (.forIn fun _ _ => .once (safe_notify _)) fun _ => .ite (.throw _) (.pure _)

theorem reader_inputTime (u : Work ρ) : Reader u.inputTime := by
  unfold inputTime
  split
  · rw [← bind_pure_comp]
    exact (reader_changedAt _).bind fun _ => .pure _
  · exact .pure _

theorem safe_stamp (hR : R.Keeps) (n : Node) : ∀ s : Option Stamp, Safe R (stamp n s)
  | some s => (Graph.safe_setContent fun old new
      (hr : Graph.Revised .keep .keep (.put (some s)) old new) =>
        hR.keep old new hr.key hr.members_eq hr.content).bind fun _ => .pure _
  | none => .pure _

/-- A unit fits a regime when its prompt, its node and the steps to apply its results are safe. -/
structure Fits (R : Regime) (u : Work ρ) : Prop where
  /-- The prompt is built safely. -/
  prompt : Safe R u.prompt
  /-- The node is made safely. -/
  node : Safe R u.node
  /-- Every result that passes the check is applied in safe steps. -/
  steps : ∀ {r n}, u.check n r = .ok () → ∀ x ∈ u.steps r, Safe R x

end Work

/-- Operations are judged by the changes that they make. -/
def Regime.judgement (R : Regime) (hR : R.admits .calls) : Judgement where
  Holds x Q := ∀ w, R.holds w → Runs R.admits w x fun a _ => Q a
  reader hx h _ _ := .of_reader hx fun _ => h
  bind hx hf w hI hw := ((hx w hI).bind fun a w' _ hr ha => hf a ha w' (R.lasts hw hr hI)) hw
  outcomeOf {α x Q} hx w hI := by
    have hok : Runs R.admits w (Except.ok <$> x) fun (o : Except Failure α) _ => ∀ a, o = .ok a → Q a :=
      .map ((hx w hI).weaken fun a _ _ ha b hb => Except.ok.inj hb ▸ ha)
    exact hok.tryCatch fun e _ _ _ => .pure fun _ h => by cases h
  notify n _ _ := (runs_notify n).weaken fun _ _ _ _ => trivial
  calls f w _ _ := ⟨.single (.inr hR) (.calls w (f w).2.1 (f w).2.2) rfl rfl, trivial⟩

namespace Work

variable {u : Work ρ}

theorem forSteps_cons (x : Op Unit) (l : List (Op Unit)) :
    (do for y in x :: l do y : Op Unit) = x >>= fun _ => (do for y in l do y : Op Unit) := by
  rw [List.forIn_cons]
  simp only [bind_assoc, pure_bind]

theorem forSteps_singleton (x : Op Unit) : (do for y in [x] do y : Op Unit) = x := by
  rw [forSteps_cons]
  exact bind_pure_unit

/-- A result that is applied in one step. -/
theorem apply_eq_step {a : ρ} {x : Op Unit} (h : u.steps a = [x]) : u.apply a = x := by
  rw [apply, h, forSteps_singleton]

theorem forSteps_append (l l' : List (Op Unit)) :
    (do for x in l ++ l' do x : Op Unit) =
      (do for x in l do x : Op Unit) >>= fun _ => (do for x in l' do x : Op Unit) := by
  induction l with
  | nil => rfl
  | cons x l ih =>
      rw [List.cons_append, forSteps_cons, forSteps_cons, ih]
      exact (bind_assoc _ _ _).symm

theorem forSteps_map {β : Type} (f : β → Op Unit) (l : List β) :
    (do for x in l.map f do x : Op Unit) = (do for b in l do f b : Op Unit) := by
  rw [List.forIn_map]

/-- A row of safe steps. -/
theorem safe_steps {l : List (Op Unit)} (h : ∀ x ∈ l, Safe R x) :
    Safe R (do for step in l do step) :=
  .bind (.forIn fun x hx => .once (h x hx)) fun _ => .pure _

theorem Fits.apply (hu : u.Fits R) {a : ρ} {n : Nat} (h : u.check n a = .ok ()) : Safe R (u.apply a) :=
  safe_steps (hu.steps h)

theorem run_eq (u : Work ρ) (r : Runner) :
    u.run r = u.ask >>= fun q => u.obtain r q.node q.stale q.prompt >>= u.conclude q := rfl

theorem Fits.ask (hu : u.Fits R) : Safe R u.ask :=
  .reader (reader_failIfCancelled _) fun _ => hu.prompt.bind fun _ =>
    .reader (reader_inputTime u) fun _ => hu.node.bind fun _ => .lift _ fun _ => .pure _

theorem safe_close (hR : R.Keeps) (q : Query) (p : ρ × Option Nat) : Safe R (u.close q p) :=
  (safe_stamp hR ..).bind fun _ => (safe_surface ..).bind fun _ => .pure _

/-- A result that has passed the check concludes a run safely. -/
theorem Fits.conclude (hR : R.Keeps) (hu : u.Fits R) (q : Query) {p : ρ × Option Nat} {n : Nat}
    (hp : u.check n p.1 = .ok ()) : Safe R (u.conclude q p) :=
  (hu.apply hp).bind fun _ => safe_close hR q p

/-- A unit that fits fares well. -/
theorem Fits.fares (hR : R.Records) (hu : u.Fits R) (r : Runner) :
    u.Fares (R.judgement hR.calls) r fun _ => True where
  ask w hI := (hu.ask.runs w hI).weaken fun _ _ _ _ => trivial
  cached {q} _ w _ := (runs_cached u r.cache q.node q.stale q.prompt w).weaken
    fun _ _ _ h a ha => ⟨0, h a ha⟩
  store {q} _ text json w hI :=
    (Cache.safe_store (fun q _ => hR.record q) hR.dropRecord).runs w hI
  step ha x hx w hI := by
    obtain ⟨n, hn⟩ := ha
    exact (hu.steps hn x hx).runs w hI
  stamp {q} _ w hI := (safe_stamp hR.toKeeps q.node q.changed).runs w hI

theorem Fits.run (hR : R.Records) (hu : u.Fits R) (r : Runner) : Safe R (u.run r) :=
  ⟨(hu.fares hR r).run⟩

theorem safe_runAll (hR : R.Records) {us : List (Work ρ)} (r : Runner) (hu : ∀ u ∈ us, u.Fits R) :
    Safe R (runAll us r) :=
  ⟨Fares.runAll (J := R.judgement hR.calls) fun u h => ⟨_, (hu u h).fares hR r⟩⟩

end Work

end IntentBuild
