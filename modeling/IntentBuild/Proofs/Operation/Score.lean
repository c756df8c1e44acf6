import IntentBuild.Proofs.Build.Budget
import IntentBuild.Proofs.Build.Course

/-!
# Scores of operations

A score shows an operation with its gates, the checks for a cancellation.  A stage, a unit or a call
of the model starts right at a gate, and between two gates there are operations that start nothing.
The operation itself is got back by leaving the gates open (`Score.run`).

A play of a score (`Score.Plays`) is a run of its operation with a log of what starts.  Somebody may
cancel the build from outside before any step of a play, and so may an answer to a call.  As the
cancellation is only ever read at the gates, no other moment makes a difference.

The log of a play halts at the first cancellation: whatever comes after it is another cancellation
(`Score.Plays.logs`).
-/

namespace IntentBuild

open Op

/-- What a gate lets start. -/
inductive Start where
  /-- A stage. -/
  | stage (s : Stage)
  /-- A unit, with its name. -/
  | unit (label : String)
  /-- A call of the model. -/
  | call (c : Call)

/-- The calls that start. -/
def Start.calls : Option Start → List Call
  | some (.call c) => [c]
  | _ => []

/-- An entry of a log. -/
inductive Beat where
  /-- The build is cancelled. -/
  | cancel
  /-- Something starts. -/
  | start (s : Start)

/-- The calls that start in a log, the last one first. -/
def Beat.calls (log : List Beat) : List Call :=
  (log.reverse.map fun
    | .start s => Start.calls (some s)
    | .cancel => []).flatten

/-- The workspace when somebody has cancelled the build. -/
def Workspace.cancel (w : Workspace) : Workspace := { w with cancelled := true }

/-- An operation with its gates. -/
inductive Score : Type → Type 1 where
  /-- An operation that starts nothing. -/
  | op {α : Type} (x : Op α) : Score α
  /-- A check for a cancellation, then something that starts with an operation. -/
  | gate {α : Type} (place : String) (lets : Option Start) (x : Op α) : Score α
  /-- One score after the other. -/
  | bind {α β : Type} (s : Score α) (f : α → Score β) : Score β

namespace Score

variable {α β : Type}

/-- The operation of a score. -/
def run : {α : Type} → Score α → Op α
  | _, .op x => x
  | _, .gate place _ x => do Work.failIfCancelled place; x
  | _, .bind s f => do (f (← s.run)).run

/-- The entries of a log for what starts with an operation, which may come to be cancelled. -/
def logOf (lets : Option Start) (x : Op α) (w : Workspace) : List Beat :=
  lets.toList.map .start ++ if (x.after w).cancelled then [.cancel] else []

/-- A play of a score from a workspace, with its log and what comes of it. -/
inductive Plays : {α : Type} → Score α → Workspace → List Beat →
    EStateM.Result Failure Workspace α → Prop where
  /-- Somebody cancels the build from outside. -/
  | cancel {α : Type} {s : Score α} {w : Workspace} {log : List Beat}
      {r : EStateM.Result Failure Workspace α} (h : Plays s w.cancel log r) :
      Plays s w (.cancel :: log) r
  /-- An operation runs. -/
  | op {α : Type} (x : Op α) (w : Workspace) : Plays (.op x) w [] (x.run w)
  /-- The check fails, and nothing starts. -/
  | held {α : Type} {place : String} {lets : Option Start} {x : Op α} {e : Failure}
      {w w' : Workspace} (h : (Work.failIfCancelled place).run w = .error e w') :
      Plays (.gate place lets x) w [] (.error e w')
  /-- The check does not fail. -/
  | passed {α : Type} {place : String} {lets : Option Start} {x : Op α} {w w' : Workspace}
      (h : (Work.failIfCancelled place).run w = .ok ⟨⟩ w') :
      Plays (.gate place lets x) w (logOf lets x w') (x.run w')
  /-- The first score fails. -/
  | stop {α β : Type} {s : Score α} {f : α → Score β} {w w' : Workspace} {log : List Beat}
      {e : Failure} (h : Plays s w log (.error e w')) : Plays (.bind s f) w log (.error e w')
  /-- The second score goes on with what the first one gives. -/
  | next {α β : Type} {s : Score α} {f : α → Score β} {w w' : Workspace} {log log' : List Beat}
      {a : α} {r : EStateM.Result Failure Workspace β} (h : Plays s w log (.ok a w'))
      (h' : Plays (f a) w' log' r) : Plays (.bind s f) w (log ++ log') r

/-! ## Gates -/

/-- A gate is shut where the build is cancelled. -/
theorem held_eq {place : String} {e : Failure} {w w' : Workspace}
    (h : (Work.failIfCancelled place).run w = .error e w') : w.cancelled = true ∧ w' = w := by
  rw [Build.failIfCancelled_run] at h
  split at h
  · rename_i hc
    cases h
    exact ⟨hc, rfl⟩
  · cases h

theorem passed_eq {place : String} {u : Unit} {w w' : Workspace}
    (h : (Work.failIfCancelled place).run w = .ok u w') : w.cancelled = false ∧ w' = w := by
  rw [Build.failIfCancelled_run] at h
  split at h
  · cases h
  · rename_i hc
    cases h
    exact ⟨Bool.not_eq_true _ ▸ hc, rfl⟩

/-! ## Plays without anybody outside -/

/-- What the operation of a score does is a play of the score. -/
theorem plays_run (s : Score α) (w : Workspace) : ∃ log, s.Plays w log (s.run.run w) := by
  induction s generalizing w with
  | op x => exact ⟨[], .op x w⟩
  | gate place lets x =>
      rw [run]
      cases h : (Work.failIfCancelled place).run w with
      | error e w' => exact ⟨_, by rw [bind_error h]; exact .held h⟩
      | ok u w' => exact ⟨_, by rw [bind_ok h]; exact .passed h⟩
  | bind s f ihs ihf =>
      rw [run]
      obtain ⟨log, hs⟩ := ihs w
      cases h : s.run.run w with
      | error e w' => exact ⟨log, by rw [bind_error h]; exact .stop (h ▸ hs)⟩
      | ok a w' =>
          obtain ⟨log', hf⟩ := ihf a w'
          exact ⟨log ++ log', by rw [bind_ok h]; exact .next (h ▸ hs) hf⟩

/-! ## The parts of a play -/

/-- The second workspace is the first one, where the build may have been cancelled since. -/
def Interrupted (w w' : Workspace) : Prop := w' = w ∨ w' = w.cancel

theorem Interrupted.of_cancel {w w' : Workspace} (h : Interrupted w.cancel w') :
    Interrupted w w' := by
  rcases h with rfl | rfl
  · exact .inr rfl
  · exact .inr rfl

namespace Plays

variable {w w' : Workspace} {log : List Beat}

theorem of_op {x : Op α} {r : EStateM.Result Failure Workspace α} (h : Plays (.op x) w log r) :
    ∃ v, Interrupted w v ∧ r = x.run v := by
  generalize hs : Score.op x = s at h
  induction h with
  | cancel _ ih =>
      obtain ⟨v, hv, hr⟩ := ih hs
      exact ⟨v, hv.of_cancel, hr⟩
  | op => cases hs; exact ⟨_, .inl rfl, rfl⟩
  | _ => cases hs

theorem of_gate {place : String} {lets : Option Start} {x : Op α}
    {r : EStateM.Result Failure Workspace α} (h : Plays (.gate place lets x) w log r) :
    ∃ v, Interrupted w v ∧ r = (do Work.failIfCancelled place; x : Op α).run v := by
  generalize hs : Score.gate place lets x = s at h
  induction h with
  | cancel _ ih =>
      obtain ⟨v, hv, hr⟩ := ih hs
      exact ⟨v, hv.of_cancel, hr⟩
  | held h => cases hs; exact ⟨_, .inl rfl, by rw [bind_error h]⟩
  | passed h => cases hs; exact ⟨_, .inl rfl, by rw [bind_ok h]⟩
  | _ => cases hs

theorem of_bind {s : Score α} {f : α → Score β} {r : EStateM.Result Failure Workspace β}
    (h : Plays (.bind s f) w log r) :
    (∃ e w', s.Plays w log (.error e w') ∧ r = .error e w') ∨
      ∃ first last a w', s.Plays w first (.ok a w') ∧ (f a).Plays w' last r ∧
        log = first ++ last := by
  generalize hs : Score.bind s f = t at h
  induction h with
  | cancel _ ih =>
      rcases ih hs with ⟨e, w', h, hr⟩ | ⟨first, last, a, w', h, h', hlog⟩
      · exact .inl ⟨e, w', h.cancel, hr⟩
      · exact .inr ⟨_, last, a, w', h.cancel, h', by rw [hlog]; rfl⟩
  | stop h => cases hs; exact .inl ⟨_, _, h, rfl⟩
  | next h h' => cases hs; exact .inr ⟨_, _, _, _, h, h', rfl⟩
  | _ => cases hs

end Plays

/-! ## What a log tells -/

/-- The log of what was done between two workspaces tells of every call and of every cancellation,
and it halts where the build is cancelled. -/
structure Logs (w : Workspace) (log : List Beat) (w' : Workspace) : Prop where
  /-- The calls of the log were made. -/
  calls : w'.calls = Beat.calls log ++ w.calls
  /-- The build was cancelled before, or the log tells of it. -/
  cancelled : w'.cancelled = true ↔ w.cancelled = true ∨ .cancel ∈ log
  /-- Nothing starts where the build was cancelled before. -/
  silent : w.cancelled = true → ∀ b ∈ log, b = .cancel
  /-- Nothing starts after a cancellation. -/
  halts : log.Pairwise fun b b' => b = .cancel → b' = .cancel

namespace Logs

variable {w w' w'' : Workspace} {log log' : List Beat}

theorem refl (w : Workspace) : Logs w [] w :=
  ⟨rfl, by simp, nofun, .nil⟩

theorem append (h : Logs w log w') (h' : Logs w' log' w'') : Logs w (log ++ log') w'' where
  calls := by
    rw [h'.calls, h.calls, ← List.append_assoc]
    simp [Beat.calls]
  cancelled := by rw [h'.cancelled, h.cancelled, List.mem_append, or_assoc]
  silent hw b hb := by
    rcases List.mem_append.mp hb with hb | hb
    · exact h.silent hw b hb
    · exact h'.silent (h.cancelled.mpr (.inl hw)) b hb
  halts := List.pairwise_append.mpr ⟨h.halts, h'.halts, fun b hb b' hb' hcancel =>
    h'.silent (h.cancelled.mpr (.inr (hcancel ▸ hb))) b' hb'⟩

/-- Somebody cancels the build from outside. -/
theorem cancel (h : Logs w.cancel log w') : Logs w (.cancel :: log) w' where
  calls := by rw [h.calls]; simp [Beat.calls, Workspace.cancel]
  cancelled := by rw [h.cancelled]; simp [Workspace.cancel]
  silent _ b hb := (List.mem_cons.mp hb).elim id (h.silent rfl b)
  halts := List.pairwise_cons.mpr ⟨fun b hb _ => h.silent rfl b hb, h.halts⟩

end Logs

/-- What comes after a cancellation is another one. -/
theorem Logs.not_start {w w' : Workspace} {before after : List Beat}
    (h : Logs w (before ++ .cancel :: after) w') (x : Start) : .start x ∉ after := fun hx =>
  nomatch (List.pairwise_cons.mp (List.pairwise_append.mp h.halts).2.1).1 _ hx rfl

/-! ## Scores in tune -/

/-- The score tells of all calls, and what it gives satisfies a condition. -/
def InTune : {α : Type} → Score α → (α → Prop) → Prop
  | _, .op x, Q => ∀ w, Runs Regime.uncalled.admits w x fun a _ => Q a
  | _, .gate _ lets x, Q => ∀ w, Runs Event.Any w x (fun a _ => Q a) ∧
      (w.Sound → (x.after w).calls = Start.calls lets ++ w.calls)
  | _, .bind s f, Q => s.InTune fun a => (f a).InTune Q

theorem InTune.mono {s : Score α} {P Q : α → Prop} (hs : s.InTune P) (h : ∀ a, P a → Q a) :
    s.InTune Q := by
  induction s with
  | op x => exact fun w => (hs w).weaken fun a _ _ ha => h a ha
  | gate place lets x => exact fun w => ⟨(hs w).1.weaken fun a _ _ ha => h a ha, (hs w).2⟩
  | bind s f ihs ihf => exact ihs hs fun a ha => ihf a ha h

/-- The workspace that is left, whether there is a failure or not. -/
def left : EStateM.Result Failure Workspace α → Workspace
  | .ok _ w => w
  | .error _ w => w

theorem left_run (x : Op α) (w : Workspace) : left (x.run w) = x.after w := rfl

/-- What a run does from a sound workspace, where the condition on what it gives does not depend on
the workspace that it leaves. -/
theorem gives_of_runs {A : Event → Prop} {x : Op α} {Q : α → Prop} {w : Workspace}
    (hx : Runs A w x fun a _ => Q a) (hw : w.Sound) :
    (left (x.run w)).Sound ∧ ∀ {a w'}, x.run w = .ok a w' → Q a :=
  ⟨(hx.after hw).sound hw, fun h => (hx.ok hw h).2⟩

/-- The log of a score in tune tells of every call and every cancellation, and halts where the build
is cancelled. -/
theorem Plays.logs {s : Score α} {w : Workspace} {log : List Beat}
    {r : EStateM.Result Failure Workspace α} (h : s.Plays w log r) {Q : α → Prop}
    (hs : s.InTune Q) (hw : w.Sound) :
    Logs w log (left r) ∧ (left r).Sound ∧ ∀ {a w'}, r = .ok a w' → Q a := by
  induction h with
  | cancel _ ih =>
      obtain ⟨hlogs, hrest⟩ := ih hs ⟨hw.wellFormed, hw.spent, hw.exact⟩
      exact ⟨hlogs.cancel, hrest⟩
  | @op _ x w =>
      obtain ⟨hcalls, hcancelled⟩ := ((hs w).after hw).calls_eq
      refine ⟨⟨hcalls, ?_, nofun, .nil⟩, gives_of_runs (hs w) hw⟩
      rw [left_run, hcancelled]
      simp
  | held h =>
      obtain ⟨-, rfl⟩ := held_eq h
      exact ⟨.refl _, hw, nofun⟩
  | @passed _ place lets x w w' h =>
      obtain ⟨hlive, rfl⟩ := passed_eq h
      obtain ⟨hruns, hcalls⟩ := hs w'
      refine ⟨⟨?_, ?_, ?_, ?_⟩, gives_of_runs hruns hw⟩
      · rw [left_run, hcalls hw]
        unfold logOf Beat.calls
        cases lets <;> split <;> simp [Start.calls]
      · rw [left_run, hlive]
        unfold logOf
        cases lets <;> split <;> simp_all
      · rw [hlive]
        exact nofun
      · unfold logOf
        cases lets <;> split <;> simp
  | stop _ ih =>
      obtain ⟨hlogs, hsound, -⟩ := ih hs hw
      exact ⟨hlogs, hsound, nofun⟩
  | next _ _ ih ih' =>
      obtain ⟨hlogs, hsound, hgives⟩ := ih hs hw
      obtain ⟨hlogs', hrest⟩ := ih' (hgives rfl) hsound
      exact ⟨hlogs.append hlogs', hrest⟩

/-! ## Scores of a class of changes -/

/-- The operations of the score make only changes of a class. -/
def Within (A : Event → Prop) : {α : Type} → Score α → Prop
  | _, .op x | _, .gate _ _ x => Safe (.only A) x
  | _, .bind s f => s.Within A ∧ ∀ a, (f a).Within A

theorem Interrupted.reach {A : Event → Prop} (hA : A .calls) {w w' : Workspace}
    (h : Interrupted w w') : Reach A w w' := by
  rcases h with rfl | rfl
  · exact .refl _
  · exact .single (.inr hA) (.calls w w.calls true)

theorem Interrupted.tables_eq {w w' : Workspace} (h : Interrupted w w') :
    w'.tables = w.tables := by
  rcases h with rfl | rfl
  · rfl
  · rfl

/-- A play makes the changes of its score, and somebody may cancel the build. -/
theorem Plays.reach {A : Event → Prop} (hA : A .calls) {s : Score α} {w : Workspace}
    {log : List Beat} {r : EStateM.Result Failure Workspace α} (h : s.Plays w log r)
    (hs : s.Within A) (hw : w.Sound) : Reach A w (left r) := by
  induction h with
  | @cancel _ _ w _ _ _ ih =>
      have hcancel : Reach A w w.cancel := Interrupted.reach hA (.inr rfl)
      exact hcancel.trans (ih hs (hcancel.sound hw))
  | op x w => exact (hs.runs w trivial).after hw
  | held h =>
      obtain ⟨-, rfl⟩ := held_eq h
      exact .refl _
  | passed h =>
      obtain ⟨-, rfl⟩ := passed_eq h
      exact (hs.runs _ trivial).after hw
  | stop _ ih => exact ih hs.1 hw
  | next _ _ ih ih' =>
      have hfirst := ih hs.1 hw
      exact hfirst.trans (ih' (hs.2 _) (hfirst.sound hw))

end Score

end IntentBuild
