import IntentBuild.Proofs.Cache.Hits
import IntentBuild.Proofs.Operation.Disk
import IntentBuild.Proofs.Operation.Heedless

/-!
# The attempts of a unit

A unit that does not take its result from the cache makes the same call again and again until an
answer is accepted, at most five times.  Everything that can be wrong with an answer, from a failed
transport to the check of the stage, is one more rejection (`Work.generateFrom_accepts`,
`Work.generateFrom_fails`).

When no answer is accepted, the unit fails with all rejections in order and leaves everything
untouched: at most the node of its derived data was made, which is empty
(`Work.budget_and_isolation`).
-/

namespace IntentBuild

open Op

/-! ## Changes without a call -/

/-- All changes but calls of the model. -/
def Regime.uncalled : Regime := .only fun e => e ≠ .calls

theorem Regime.declares_uncalled : Regime.uncalled.Declares :=
  ⟨fun _ _ _ => nofun, fun _ _ _ => nofun, fun _ => nofun, fun _ _ => nofun⟩

theorem Regime.keeps_uncalled : Regime.uncalled.Keeps := ⟨fun _ _ _ _ _ => nofun⟩

/-- The stages of a build call no model but through their units. -/
theorem Regime.crafts_uncalled (c : BuildContext) : Regime.uncalled.Crafts c :=
  Regime.crafts_of_admits (fun _ _ he => he) c

theorem Reach.calls_eq {w w' : Workspace} (h : Reach (· ≠ .calls) w w') :
    w'.calls = w.calls ∧ w'.cancelled = w.cancelled := by
  induction h with
  | refl => exact ⟨rfl, rfl⟩
  | step _ he hs ih =>
      cases hs with
      | calls => exact absurd rfl (he.resolve_left id)
      | _ => exact ih

/-- Calls of the model leave the graph alone. -/
theorem Reach.tables_of_calls {w w' : Workspace} (h : Reach (· = .calls) w w') :
    w'.tables = w.tables := by
  induction h with
  | refl => rfl
  | step _ he hs ih =>
      rcases he with hq | rfl
      · exact (hs.tables_of_quiet hq).trans ih
      · cases hs; exact ih

/-- New nodes and edges leave all files alone. -/
theorem Event.Grows.clears {e : Event} (he : e.Grows) (d : Path) (k : List String) :
    e.Clears d k := by
  cases e <;> first | exact he.elim | trivial

namespace Work

variable {ρ : Type} {u : Work ρ} {endpoint : Endpoint} {prompt : String} {w : Workspace}

/-! ## Attempts -/

/-- The call that a unit makes in every attempt. -/
def call (u : Work ρ) (prompt : String) : Call := Call.ofPrompt u.tool u.role prompt

/-- The answer to a call that was made a number of times already, after other calls. -/
def answerAt (endpoint : Endpoint) (calls : List Call) (c : Call) (i : Nat) : Answer :=
  endpoint (List.replicate i c ++ calls) c

/-- What a unit makes of the answer after a number of attempts. -/
def verdict (u : Work ρ) (endpoint : Endpoint) (calls : List Call) (prompt : String) (i : Nat) :
    Except Rejection (Accepted ρ) :=
  (u.judge 0 (answerAt endpoint calls (u.call prompt) i).outcome).outcome

/-- The check of a unit does not count the results. -/
def Uniform (u : Work ρ) : Prop := ∀ m n r, u.check m r = u.check n r

theorem outcome_judge (hu : u.Uniform) (m n : Nat) (o : Outcome) :
    (u.judge m o).outcome = (u.judge n o).outcome := by
  cases o with
  | raised | status => rfl
  | texts parts =>
      unfold judge
      dsimp only
      split
      · rfl
      · split
        · rfl
        · rename_i r _
          rw [hu m n r]
          cases u.check n r <;> rfl

theorem answerAt_succ (endpoint : Endpoint) (calls : List Call) (c : Call) (i : Nat) :
    answerAt endpoint (c :: calls) c i = answerAt endpoint calls c (i + 1) := by
  rw [answerAt, answerAt, List.replicate_succ', List.append_assoc, List.singleton_append]

/-- An attempt makes the call once, and judges the answer. -/
theorem attempt_run (hu : u.Uniform) (checked : Nat) :
    ∃ n b, (u.attempt endpoint prompt checked).run w =
      .ok ⟨u.verdict endpoint w.calls prompt 0, n⟩
        { w with calls := u.call prompt :: w.calls, cancelled := b } ∧
      b = (w.cancelled || (answerAt endpoint w.calls (u.call prompt) 0).cancels) := by
  refine ⟨(u.judge checked (endpoint w.calls (u.call prompt)).outcome).checked, _, ?_, rfl⟩
  rw [verdict, outcome_judge hu 0 checked]
  rfl

theorem failIfCancelled_run (hw : w.cancelled = false) (place : String) :
    (failIfCancelled place).run w = .ok ⟨⟩ w := by
  refine (bind_ok (x := get) rfl).trans ?_
  rw [hw]
  rfl

/-- A rejected answer leaves one attempt less. -/
theorem generateFrom_rejected (hu : u.Uniform) (hw : w.cancelled = false) {e : Rejection}
    (he : u.verdict endpoint w.calls prompt 0 = .error e)
    (hlive : (answerAt endpoint w.calls (u.call prompt) 0).cancels = false)
    (left checked : Nat) (reasons : List Rejection) : ∃ n notices,
    (u.generateFrom endpoint prompt (left + 1) checked reasons).run w =
      (u.generateFrom endpoint prompt left n (reasons ++ [e])).run
        { w with calls := u.call prompt :: w.calls, notices := notices } := by
  obtain ⟨n, b, hrun, hb⟩ := @attempt_run _ u endpoint prompt w hu checked
  obtain rfl : b = w.cancelled := by rw [hb, hlive, Bool.or_false]
  refine ⟨n, .attemptFailed u.label (attemptBudget - left) attemptBudget e :: w.notices, ?_⟩
  rw [generateFrom, bind_ok (failIfCancelled_run hw _), bind_ok hrun, he]
  rfl

/-- An accepted answer ends the attempts. -/
theorem generateFrom_accepted (hu : u.Uniform) (hw : w.cancelled = false) {a : Accepted ρ}
    (ha : u.verdict endpoint w.calls prompt 0 = .ok a) (left checked : Nat)
    (reasons : List Rejection) : ∃ b,
    (u.generateFrom endpoint prompt (left + 1) checked reasons).run w =
      .ok (a, attemptBudget - left)
        { w with calls := u.call prompt :: w.calls, cancelled := b } := by
  obtain ⟨n, b, hrun, -⟩ := @attempt_run _ u endpoint prompt w hu checked
  refine ⟨b, ?_⟩
  rw [generateFrom, bind_ok (failIfCancelled_run hw _), bind_ok hrun, ha]
  rfl

/-- The answers to the calls that are made from a workspace on are rejected, each with a reason, and
none of them cancels the build. -/
structure Rejects (u : Work ρ) (endpoint : Endpoint) (prompt : String) (calls : List Call)
    (n : Nat) (e : Nat → Rejection) : Prop where
  /-- The answer is rejected. -/
  verdict : ∀ i < n, u.verdict endpoint calls prompt i = .error (e i)
  /-- The answer does not cancel the build. -/
  live : ∀ i < n, (answerAt endpoint calls (u.call prompt) i).cancels = false

theorem Rejects.tail {calls : List Call} {n : Nat} {e : Nat → Rejection}
    (h : u.Rejects endpoint prompt calls (n + 1) e) :
    u.Rejects endpoint prompt (u.call prompt :: calls) n fun i => e (i + 1) where
  verdict i hi := by
    rw [Work.verdict, answerAt_succ]
    exact h.verdict (i + 1) (by omega)
  live i hi := by
    rw [answerAt_succ]
    exact h.live (i + 1) (by omega)

/-- After some rejected answers so many attempts less are left, and the reasons stand in order. -/
theorem generateFrom_rejects (hu : u.Uniform) (left : Nat) {n : Nat} {e : Nat → Rejection}
    (hw : w.cancelled = false) (h : u.Rejects endpoint prompt w.calls n e) (checked : Nat)
    (reasons : List Rejection) : ∃ m notices,
    (u.generateFrom endpoint prompt (n + left) checked reasons).run w =
      (u.generateFrom endpoint prompt left m (reasons ++ (List.range n).map e)).run
        { w with calls := List.replicate n (u.call prompt) ++ w.calls, notices := notices } := by
  induction n generalizing w e checked reasons with
  | zero => exact ⟨checked, w.notices, by simp⟩
  | succ n ih =>
      obtain ⟨m, notices, hfirst⟩ := generateFrom_rejected hu hw (h.verdict 0 (by omega))
        (h.live 0 (by omega)) (n + left) checked reasons
      obtain ⟨m', notices', hrest⟩ := ih
        (w := { w with calls := u.call prompt :: w.calls, notices := notices }) hw h.tail m
        (reasons ++ [e 0])
      refine ⟨m', notices', ?_⟩
      rw [Nat.add_right_comm, hfirst, hrest, List.append_assoc, List.range_succ_eq_map,
        List.replicate_succ', List.append_assoc]
      simp only [List.map_cons, List.map_map, List.singleton_append]
      rfl

/-- When all answers are rejected, the attempts end with the reasons in order. -/
theorem generate_fails (hu : u.Uniform) {e : Nat → Rejection} (hw : w.cancelled = false)
    (h : u.Rejects endpoint prompt w.calls attemptBudget e) (checked : Nat) : ∃ notices,
    (u.generate endpoint prompt checked).run w =
      .error (.build (.generation u.label ((List.range attemptBudget).map e)))
        { w with
          calls := List.replicate attemptBudget (u.call prompt) ++ w.calls
          notices := notices } := by
  obtain ⟨m, notices, hrun⟩ := generateFrom_rejects hu 0 hw h checked []
  refine ⟨.givingUp u.label attemptBudget :: notices, ?_⟩
  rw [generate, ← Nat.add_zero attemptBudget, hrun]
  rfl

/-- The first accepted answer is the last one that is asked for. -/
theorem generate_accepts (hu : u.Uniform) {n : Nat} {e : Nat → Rejection} {a : Accepted ρ}
    (hw : w.cancelled = false) (hn : n < attemptBudget)
    (h : u.Rejects endpoint prompt w.calls n e)
    (ha : u.verdict endpoint w.calls prompt n = .ok a) (checked : Nat) : ∃ b notices,
    (u.generate endpoint prompt checked).run w = .ok (a, n + 1)
      { w with
        calls := List.replicate (n + 1) (u.call prompt) ++ w.calls
        cancelled := b
        notices := notices } := by
  obtain ⟨left, hleft⟩ : ∃ left, attemptBudget = n + (left + 1) :=
    ⟨attemptBudget - (n + 1), by omega⟩
  obtain ⟨m, notices, hrun⟩ := generateFrom_rejects hu (left + 1) hw h checked []
  obtain ⟨b, hlast⟩ := generateFrom_accepted
    (w := { w with calls := List.replicate n (u.call prompt) ++ w.calls, notices := notices })
    hu hw ha left m ([] ++ (List.range n).map e)
  refine ⟨b, notices, ?_⟩
  rw [generate, hleft, hrun, hlast, show attemptBudget - left = n + 1 by omega]
  rfl

/-! ## The units of the stages -/

/-- The types of the nodes of derived data. -/
def derivedTypes : List NodeType := [.techStackData, .loweringData, .indexedData, .compilerData]

/-- A unit of a generative stage. -/
inductive Built (c : BuildContext) : {ρ : Type} → Work ρ → Prop
  | techStack (tool : ToolConfig) (path : Path) (file : Node) :
      Built c (TechStack.work c tool path file)
  | lowering {us : List (Work LoweringResult)} {u : Work LoweringResult} {w w' : Workspace}
      (hw : w.Sound) (h : (Lowering.works c).run w = .ok us w') (hu : u ∈ us) : Built c u
  | indexing {us : List (Work IndexResult)} {u : Work IndexResult} {w w' : Workspace}
      (hw : w.Sound) (h : (Indexing.works c).run w = .ok us w') (hu : u ∈ us) : Built c u
  | compilation {us : List (Work CompileResult)} {u : Work CompileResult} {w w' : Workspace}
      (hw : w.Sound) (h : (Compilation.works c).run w = .ok us w') (hu : u ∈ us) : Built c u

/-- What the units of all generative stages have in common. -/
structure Generative (u : Work ρ) : Prop where
  /-- The prompt is read. -/
  prompt : Reader u.prompt
  /-- The node is one of derived data. -/
  node : ∃ file type name, u.node = Graph.getOrCreate (some file) type name none ∧
    type ∈ derivedTypes
  /-- The check does not count the results. -/
  uniform : u.Uniform
  /-- Building the prompt does not heed the build. -/
  asks : ∀ {F} [Failure.OfBuild F], Avoids F u.prompt
  /-- Applying a result does not heed the build. -/
  steps : ∀ {F} [Failure.OfBuild F] (a : ρ), ∀ x ∈ u.steps a, Avoids F x

theorem Generative.apply {F : Failure → Prop} [Failure.OfBuild F] (hu : u.Generative) (a : ρ) :
    Avoids F (u.apply a) :=
  .bind (.forIn fun x hx => .once (hu.steps a x hx)) fun _ => .pure _

theorem heedless_inputTime {F : Failure → Prop} [Failure.OfBuild F] (u : Work ρ) :
    Avoids F u.inputTime := by
  unfold inputTime
  split
  · exact .map (heedless_changedAt _)
  · exact .pure _

theorem heedless_isStale {F : Failure → Prop} [Failure.OfBuild F] (n : Node) (changed : Option Stamp) :
    Avoids F (Op.lift (fun e => e) (isStale n changed)) := by
  refine .lift fun e he => ?_
  unfold isStale at he
  split at he
  · cases he
  · cases he
  · split at he <;> cases he
    exact outside nofun

theorem heedless_cached {F : Failure → Prop} [Failure.OfBuild F] (u : Work ρ) (cache : Cache) (n : Node)
    (stale : Bool) (prompt : String) : Avoids F (u.cached cache n stale prompt) :=
  .ite (.pure _) ((cache.heedless_lookup ..).bind fun _ => .pure _)

theorem heedless_stamp {F : Failure → Prop} [Failure.OfBuild F] (n : Node) :
    ∀ s : Option Stamp, Avoids F (stamp n s)
  | some _ => (Graph.heedless_setContent ..).bind fun _ => .pure _
  | none => .pure _

theorem Built.generative {c : BuildContext} (h : Built c u) : u.Generative := by
  cases h with
  | techStack tool path file =>
      exact ⟨(reader_readText _).bind fun _ => .pure _, ⟨file, _, _, rfl, by decide⟩,
        fun _ _ _ => rfl, (heedless_readText _).bind fun _ => .pure _,
        fun _ _ hx => List.mem_singleton.mp hx ▸ TechStack.heedless_apply c file _⟩
  | lowering _ h hu =>
      obtain ⟨_, _, _, _, _, file, rfl⟩ := Lowering.mem_works h _ hu
      exact ⟨.pure _, ⟨file, _, _, rfl, by decide⟩, fun _ _ _ => rfl, .pure _,
        Lowering.heedless_steps c file⟩
  | indexing _ h hu =>
      obtain ⟨_, _, _, file, rfl⟩ := Indexing.mem_works h _ hu
      exact ⟨.pure _, ⟨file, _, _, rfl, by decide⟩, fun _ _ _ => rfl, .pure _,
        fun _ _ hx => List.mem_singleton.mp hx ▸ Indexing.heedless_apply file _⟩
  | compilation hw h hu =>
      obtain ⟨_, _, file, _, -, rfl⟩ := Compilation.mem_works hw h _ hu
      exact ⟨.pure _, ⟨file, _, _, rfl, by decide⟩, fun _ _ _ => rfl, .pure _,
        Compilation.heedless_steps c file _ _⟩

/-- The units fit every regime that admits what the stages change. -/
theorem Built.fits {R : Regime} {c : BuildContext} (hR : R.Crafts c) (h : Built c u) : u.Fits R := by
  cases h with
  | techStack tool path file => exact TechStack.fits_work (hR.resolves file) ..
  | lowering _ h hu =>
      obtain ⟨_, _, _, _, _, file, rfl⟩ := Lowering.mem_works h _ hu
      exact Lowering.fits_unit (hR.lowers file) ..
  | indexing _ h hu =>
      obtain ⟨_, _, _, file, rfl⟩ := Indexing.mem_works h _ hu
      exact Indexing.fits_unit (hR.derives file (by decide)) ..
  | compilation hw h hu =>
      obtain ⟨_, _, file, _, hf, rfl⟩ := Compilation.mem_works hw h _ hu
      exact Compilation.fits_unit (hR.compiles file hf) ..

/-! ## Runs without the cache -/

/-- The second workspace has the edges, the records and the files of the first one, where the document
of the graph counts as no file, and its nodes, but for one that may be new. -/
structure Untouched (n : Node) (w w' : Workspace) : Prop where
  /-- The edges stay. -/
  edges : w'.tables.edges = w.tables.edges
  /-- The records stay. -/
  records : w'.tables.records = w.tables.records
  /-- The nodes stay, and a node that comes is one of derived data and has no content. -/
  nodes : w'.tables.nodes = w.tables.nodes ∨
    w'.tables.nodes = w.tables.nodes ++ [(n.id, n)] ∧ n.type ∈ derivedTypes ∧ n.content = none ∧
      n.json = none ∧ n.contentUpdated = none
  /-- The files stay, with the times of their last changes. -/
  files : ∀ k, k ≠ w.files.key (documentPath w.graph) → w'.files.fileAt? k = w.files.fileAt? k

/-- The unit looks for a result, and takes none from the cache. -/
structure Misses (u : Work ρ) (r : Runner) (w : Workspace) (q : Query) : Prop where
  /-- The unit can look for a result, and there is none that fits. -/
  misses : ∃ w₁ w₂ checked, u.ask.run w = .ok q w₁ ∧
    (u.cached r.cache q.node q.stale q.prompt).run w₁ = .ok (none, checked) w₂

/-- The part of a run after a result was generated. -/
def keep (u : Work ρ) (r : Runner) (q : Query) (p : Accepted ρ × Nat) : Op (UnitReport ρ) := do
  let _ ← r.cache.store q.node u.tool.toolId q.prompt p.1.text (u.schema.toJson p.1.result).members?
  u.conclude q (p.1.result, some p.2)

variable {r : Runner} {q : Query}

/-- Looking for a result makes no more than the node of derived data. -/
theorem untouched_of_ask {w₁ : Workspace} (hu : u.Generative) (hw : w.Sound)
    (h : u.ask.run w = .ok q w₁) : Reach Event.Grows w w₁ ∧ Untouched q.node w w₁ := by
  obtain ⟨w₀, hprompt, -, hnode, -⟩ := ask_eq_ok h
  obtain rfl := hu.prompt.eq hprompt
  obtain ⟨file, type, name, hu, htype⟩ := hu.node
  rw [hu] at hnode
  obtain ⟨hreach, hfound⟩ := (Graph.runs_getOrCreate (A := Event.Grows)
    fun _ _ _ _ => trivial).ok hw hnode
  refine ⟨hreach, ?_⟩
  have hfiles (k : List String) (hk : k ≠ w₀.files.key (documentPath w₀.graph)) :
      w₁.files.fileAt? k = w₀.files.fileAt? k := (hreach.mono fun _ he => he.clears _ k).fileAt?_eq hk
  generalize ht : w₁.tables = t at hfound
  cases hfound with
  | old => exact ⟨by rw [ht], by rw [ht], .inl (by rw [ht]), hfiles⟩
  | new hinsert hkey hjson hcontent hstamp =>
      obtain ⟨rfl, hnew, -⟩ := Tables.insertNode_eq_ok hinsert
      refine ⟨by rw [ht]; rfl, by rw [ht]; rfl, .inr ⟨?_, ?_, hcontent, hjson, hstamp⟩, hfiles⟩
      · rw [ht]
        exact Assoc.set_of_not_mem hnew _
      rw [show q.node.type = type from congrArg NodeKey.type hkey]
      exact htype

theorem safe_cached {R : Regime} (u : Work ρ) (cache : Cache) (n : Node) (stale : Bool)
    (prompt : String) : Safe R (u.cached cache n stale prompt) :=
  .ite (.pure _) ((cache.safe_lookup ..).bind fun _ => .pure _)

/-- Where the cache has no result, the run goes on with an attempt from a workspace where all else is
untouched. -/
theorem Misses.run_eq (h : u.Misses r w q) (hu : u.Generative) (hw : w.Sound) :
    ∃ w₂ checked, w₂.Sound ∧ w₂.calls = w.calls ∧ w₂.cancelled = false ∧ Untouched q.node w w₂ ∧
      (u.run r).run w = (u.generate r.endpoint q.prompt checked >>= u.keep r q).run w₂ := by
  obtain ⟨w₁, w₂, checked, hask, hcached⟩ := h.misses
  obtain ⟨hgrows, huntouched⟩ := untouched_of_ask hu hw hask
  have hw₁ := hgrows.sound hw
  obtain ⟨hquiet, -⟩ := ((safe_cached (R := .only Event.None) ..).runs w₁ trivial).ok hw₁ hcached
  have hreach : Reach Event.Grows w w₂ := hgrows.trans hquiet.of_quiet
  obtain ⟨hcalls, hcancelled⟩ := (hreach.mono fun e he => by rintro rfl; exact he).calls_eq
  have ht := hquiet.tables_of_quiet
  refine ⟨w₂, checked, hreach.sound hw, hcalls, ?_, ?_, ?_⟩
  · obtain ⟨_, _, hlive, -⟩ := bind_eq_ok.mp hask
    rw [hcancelled]
    cases hc : w.cancelled with
    | false => rfl
    | true =>
        rw [failIfCancelled, bind_ok (x := get) rfl, hc] at hlive
        cases hlive
  · exact ⟨by rw [ht, huntouched.edges], by rw [ht, huntouched.records], by rw [ht]; exact
      huntouched.nodes, fun k hk =>
      (hreach.mono fun _ he => he.clears _ k).fileAt?_eq hk⟩
  · rw [Work.run_eq, bind_ok hask, obtain, bind_assoc, bind_ok hcached]
    simp only [bind_assoc, pure_bind]
    rfl

/-- What comes after an accepted answer calls no model. -/
theorem safe_keep (hu : u.Fits .uncalled) {p : Accepted ρ × Nat} {n : Nat}
    (hp : u.check n p.1.result = .ok ()) : Safe .uncalled (u.keep r q p) :=
  (Cache.safe_store (fun _ _ h => nomatch h) fun _ h => nomatch h).bind fun _ =>
    hu.conclude Regime.keeps_uncalled q (p := (p.1.result, some p.2)) hp

theorem calls_keep (hu : u.Fits .uncalled) {p : Accepted ρ × Nat} {n : Nat}
    (hp : u.check n p.1.result = .ok ()) (hw : w.Sound) : ((u.keep r q p).after w).calls = w.calls :=
  (((safe_keep hu hp).runs w trivial).after hw).calls_eq.1

/-- A unit of a generative stage that does not take its result from the cache makes the same call
until an answer is accepted, and at most five times.  When none is, it fails with the five
reasons in order, all else is untouched, and no later unit of a row is started. -/
theorem budget_and_isolation {c : BuildContext} (hu : Built c u) (hw : w.Sound)
    (hmiss : u.Misses r w q) :
    (∀ n < attemptBudget, ∀ e a, u.Rejects r.endpoint q.prompt w.calls n e →
      u.verdict r.endpoint w.calls q.prompt n = .ok a →
      ((u.run r).after w).calls = List.replicate (n + 1) (u.call q.prompt) ++ w.calls) ∧
    ∀ e, u.Rejects r.endpoint q.prompt w.calls attemptBudget e → ∃ w',
      (u.run r).run w =
        .error (.build (.generation u.label ((List.range attemptBudget).map e))) w' ∧
      w'.calls = List.replicate attemptBudget (u.call q.prompt) ++ w.calls ∧
      Untouched q.node w w' ∧
      ∀ (us vs : List (Work ρ)) (reports : List (UnitReport ρ)) (w₀ : Workspace),
        r.concurrency ≤ 1 → (runAll us r).run w₀ = .ok reports w →
        (runAll (us ++ u :: vs) r).run w₀ =
          .error (.build (.generation u.label ((List.range attemptBudget).map e))) w' := by
  obtain ⟨w₂, checked, hw₂, hcalls, hlive, huntouched, hrun⟩ := hmiss.run_eq hu.generative hw
  constructor
  · intro n hn e a he ha
    obtain ⟨b, notices, hgenerate⟩ := generate_accepts hu.generative.uniform hlive hn
      (hcalls ▸ he) (hcalls ▸ ha) checked
    generalize hmade : { w₂ with
      calls := List.replicate (n + 1) (u.call q.prompt) ++ w₂.calls
      cancelled := b
      notices := notices } = w₃ at hgenerate
    have hw₃ : w₃.Sound := hmade ▸ ⟨hw₂.wellFormed, hw₂.spent, hw₂.exact⟩
    have hafter : (u.run r).after w = (u.keep r q (a, n + 1)).after w₃ := by
      unfold after
      rw [hrun, bind_ok hgenerate]
    rw [hafter, calls_keep (p := (a, n + 1)) (hu.fits (Regime.crafts_uncalled c)) (check_of_judge ha) hw₃,
      ← hmade, ← hcalls]
  · intro e he
    obtain ⟨notices, hgenerate⟩ := generate_fails hu.generative.uniform hlive (hcalls ▸ he) checked
    have hfails := hrun.trans (bind_error hgenerate)
    refine ⟨_, hfails, by rw [hcalls], ⟨huntouched.edges, huntouched.records, huntouched.nodes,
      huntouched.files⟩, fun us vs reports w₀ hone hus => ?_⟩
    rw [runAll_eq (.inl hone)] at hus ⊢
    rw [List.mapM_append, bind_ok hus, List.mapM_cons]
    exact bind_error (bind_error hfails)

/-! ## A unit without a model -/

/-- A runner whose endpoint reaches no model. -/
def unreachable : Runner where
  cache := { limit := 1 }
  endpoint := .unreachable
  concurrency := 1

/-- A context where one node stands for all of a project. -/
def alone (n : Node) : BuildContext where
  project := ⟨n, n, n, n⟩
  extensions := []
  tools := { byTool := [], timeout := 120 }
  runner := unreachable

/-- The path of a specification of the tech stack. -/
def lonePath : Path := .ofText "/work/tech-stack.md"

/-- Writes a specification of the tech stack, and makes its node. -/
def loneFile : Op Node := do
  let _ ← Op.writeIfChanged lonePath "Use Rust.\n"
  Graph.getOrCreate none .specFile "tech-stack.md" none

/-- The unit of a specification of the tech stack. -/
def loneUnit (n : Node) : Work TechStackResult :=
  TechStack.work (alone n) { toolId := "tech-stack:m", modelName := "m" } lonePath n

theorem safe_loneFile : Safe .any loneFile :=
  (safe_writeIfChanged trivial).bind fun _ => Graph.safe_getOrCreate fun _ _ _ => trivial

/-- A unit that reaches no model fails five times, and leaves all but its empty node untouched. -/
theorem budget_and_isolation_unreachable : ∃ (n : Node) (w w' : Workspace) (q : Query),
    loneFile.run Project.blank = .ok n w ∧ (loneUnit n).Misses unreachable w q ∧
    ((loneUnit n).run unreachable).run w = .error (.build (.generation (loneUnit n).label
      (List.replicate 5 (.raised "ConnectionError" "no transport to a model is configured")))) w' ∧
    w'.calls.length = 5 ∧ Untouched q.node w w' := by
  have hok : loneFile.gives Project.blank (fun n w => (loneUnit n).ask.gives w fun q _ =>
      w.calls.isEmpty && q.stale) = true := by decide +kernel
  obtain ⟨n, w, hfile, hok⟩ := gives_eq_true.mp hok
  obtain ⟨q, w₁, hask, hok⟩ := gives_eq_true.mp hok
  simp only [Bool.and_eq_true, List.isEmpty_iff] at hok
  have hw : w.Sound := ((safe_loneFile.runs _ trivial).ok Project.sound_blank hfile).1.sound
    Project.sound_blank
  have hmiss : (loneUnit n).Misses unreachable w q := ⟨w₁, w₁, 0, hask, by
    rw [cached, hok.2]
    rfl⟩
  have hbudget := budget_and_isolation (.techStack _ _ _) hw hmiss
  obtain ⟨w', hrun, hcalls, huntouched, -⟩ := hbudget.2
    (fun _ => .raised "ConnectionError" "no transport to a model is configured")
    ⟨fun _ _ => rfl, fun _ _ => rfl⟩
  refine ⟨n, w, w', q, hfile, hmiss, hrun, ?_, huntouched⟩
  rw [hcalls, List.length_append, List.length_replicate, hok.1]
  rfl

end Work

end IntentBuild
