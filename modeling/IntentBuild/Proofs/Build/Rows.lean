import IntentBuild.Build.Row
import IntentBuild.Proofs.Operation.Runs

/-!
# What rows of units keep

Operations are judged in several ways: by the changes that they make, or by a condition that they leave
behind.  A `Judgement` is a way to judge them that goes along with all that units are put together
from.

A unit *fares well* when what it asks for, what it stores and every step of every result that passes
its check is judged well (`Work.Fares`).  Then every step of its run is judged well, from any point
that it can come to (`Work.Fares.advance`), and so is the run to its end (`Work.Fares.finish`).  What
happens in a row of such units is judged well too, one unit at a time or several, and whatever the schedule
is (`Work.Fares.runAll`).
-/

namespace IntentBuild

open Op

/-! ## Judgements -/

/-- A way to judge operations, with what they give. -/
structure Judgement where
  /-- The operation is judged well, and what it gives satisfies the condition. -/
  Holds : {α : Type} → Op α → (α → Prop) → Prop
  /-- Readers are judged by what they give. -/
  reader : ∀ {α : Type} {x : Op α} {Q : α → Prop}, Reader x →
    (∀ {w a w'}, x.run w = .ok a w' → Q a) → Holds x Q
  /-- An operation after another one. -/
  bind : ∀ {α β : Type} {x : Op α} {f : α → Op β} {P : α → Prop} {Q : β → Prop},
    Holds x P → (∀ a, P a → Holds (f a) Q) → Holds (x >>= f) Q
  /-- A failure may be caught. -/
  outcomeOf : ∀ {α : Type} {x : Op α} {Q : α → Prop}, Holds x Q →
    Holds (Build.outcomeOf x) fun o => ∀ a, o = .ok a → Q a
  /-- Notices may be added. -/
  notify : ∀ n, Holds (notify n) fun _ => True
  /-- Calls may be made, and the build may be cancelled. -/
  calls : ∀ {α : Type} (f : Workspace → α × List Call × Bool), Holds
    (modifyGet fun w => ((f w).1, { w with calls := (f w).2.1, cancelled := (f w).2.2 })) fun _ => True

namespace Judgement

variable {J : Judgement} {α β : Type} {x : Op α} {f : α → Op β} {P Q : α → Prop} {S : β → Prop}

theorem pure {a : α} (h : Q a) : J.Holds (Pure.pure a) Q :=
  J.reader (.pure a) fun hrun => by cases hrun; exact h

theorem throw (e : Failure) : J.Holds (MonadExcept.throw e : Op α) Q :=
  J.reader (.throw e) fun hrun => by cases hrun

theorem weaken (h : ∀ a, P a → Q a) (hx : J.Holds x P) : J.Holds x Q := by
  have hbind := J.bind hx fun a ha => pure (J := J) (Q := Q) (h a ha)
  rwa [bind_pure] at hbind

theorem ite {c : Prop} [Decidable c] {y : Op α} (hx : J.Holds x Q) (hy : J.Holds y Q) :
    J.Holds (if c then x else y) Q := by
  split
  · exact hx
  · exact hy

/-- A loop over operations. -/
theorem forIn {l : List β} {g : β → Op Unit} (h : ∀ b ∈ l, J.Holds (g b) fun _ => True) :
    J.Holds (ForIn.forIn l PUnit.unit fun b _ => do
      g b
      Pure.pure (ForInStep.yield PUnit.unit)) fun _ => True := by
  induction l with
  | nil => exact pure trivial
  | cons b l ih =>
      rw [List.forIn_cons]
      refine J.bind (P := fun s => s = .yield ⟨⟩) (J.bind (h b (.head _)) fun _ _ => pure rfl) fun s hs => ?_
      subst hs
      exact ih fun c hc => h c (.tail _ hc)

theorem mapM {l : List β} {g : β → Op α} (h : ∀ b ∈ l, J.Holds (g b) Q) :
    J.Holds (l.mapM g) fun as => ∀ a ∈ as, Q a := by
  induction l with
  | nil => exact pure fun _ h => nomatch h
  | cons b l ih =>
      rw [List.mapM_cons]
      refine J.bind (h b (.head _)) fun a ha => J.bind (ih fun c hc => h c (.tail _ hc)) fun as has => ?_
      exact pure fun c hc => (List.mem_cons.mp hc).elim (fun h => h ▸ ha) (has c)

/-- A row of operations on a value that keeps a condition. -/
theorem foldlM {g : α → β → Op α} (h : ∀ a b, P a → J.Holds (g a b) P) (l : List β) {a : α} (ha : P a) :
    J.Holds (l.foldlM g a) P := by
  induction l generalizing a with
  | nil => exact pure ha
  | cons b l ih => exact J.bind (h a b ha) fun _ => ih

theorem failIfCancelled (place : String) : J.Holds (Work.failIfCancelled place) fun _ => True :=
  J.reader (Reader.get.bind fun _ => .ite (.throw _) (.pure _)) fun _ => trivial

theorem send (endpoint : Endpoint) (c : Call) : J.Holds (Work.send endpoint c) fun _ => True :=
  J.calls fun w => ((endpoint w.calls c).outcome, c :: w.calls,
    w.cancelled || (endpoint w.calls c).cancels)

theorem cancel : J.Holds Work.cancel fun _ => True := J.calls fun w => (PUnit.unit, w.calls, true)

theorem surface (label : String) (d : Diagnostics) :
    J.Holds (Work.surface label d) fun _ => True :=
  J.bind (forIn fun _ _ => J.notify _) fun _ _ => J.bind (forIn fun _ _ => J.notify _) fun _ _ =>
    ite (throw _) (pure trivial)

end Judgement

namespace Work

variable {ρ : Type} {J : Judgement} {u : Work ρ} {r : Runner} {own : Query → Prop}

/-! ## Units -/

/-- A result of an attempt was read from an object in a reply, and has passed the check. -/
theorem read_of_judge {u : Work ρ} {checked : Nat} {o : Outcome} {r : Accepted ρ}
    (h : (u.judge checked o).outcome = .ok r) : ∃ text ms, Reply.extract text = .ok ms ∧
      Reply.validate u.schema (.obj ms) = .ok r.result ∧ u.check checked r.result = .ok () := by
  unfold judge at h
  cases o with
  | raised | status => cases h
  | texts parts =>
      dsimp only at h
      split at h
      · cases h
      · rename_i ms hms
        split at h
        · cases h
        · rename_i a ha
          split at h
          · cases h
          · rename_i hc
            cases h
            exact ⟨_, ms, hms, ha, hc⟩

theorem check_of_judge {u : Work ρ} {checked : Nat} {o : Outcome} {r : Accepted ρ}
    (h : (u.judge checked o).outcome = .ok r) : u.check checked r.result = .ok () := by
  obtain ⟨_, _, -, -, hc⟩ := read_of_judge h
  exact hc

/-- The result passes the check of the unit. -/
def Passes (u : Work ρ) (a : ρ) : Prop := ∃ n, u.check n a = .ok ()

/-- What a unit is made of is judged well.  It only asks for what is its own, and applies only results
that pass its check. -/
structure Fares (J : Judgement) (u : Work ρ) (r : Runner) (own : Query → Prop) : Prop where
  /-- The unit asks for what is its own. -/
  ask : J.Holds u.ask own
  /-- The cache gives results that pass the check. -/
  cached : ∀ {q}, own q → J.Holds (u.cached r.cache q.node q.stale q.prompt) fun p =>
    ∀ a, p.1 = some a → u.Passes a
  /-- A result is stored. -/
  store : ∀ {q}, own q → ∀ text json,
    J.Holds (r.cache.store q.node u.tool.toolId q.prompt text json) fun _ => True
  /-- A step to apply a result. -/
  step : ∀ {a}, u.Passes a → ∀ x ∈ u.steps a, J.Holds x fun _ => True
  /-- The node is stamped. -/
  stamp : ∀ {q}, own q → J.Holds (stamp q.node q.changed) fun _ => True

/-- What holds at the points that a unit can come to. -/
def Point.Fit (J : Judgement) (u : Work ρ) (own : Query → Prop) : Point ρ → Prop
  | .start => True
  | .look q | .call q .. => own q
  | .store q p => own q ∧ u.Passes p.1.result
  | .apply q _ rest => own q ∧ ∀ x ∈ rest, J.Holds x fun _ => True

/-- What holds at a point holds where a step leads to it. -/
theorem Point.Fit.next {p' : Point ρ} (h : p'.Fit J u own) :
    ∀ p, (Sum.inl p' : Point ρ ⊕ UnitReport ρ) = .inl p → p.Fit J u own :=
  fun _ heq => Sum.inl.inj heq ▸ h

namespace Fares

variable (hu : u.Fares J r own)
include hu

theorem fit_ofResult {q : Query} (hq : own q) {p : ρ × Option Nat} (hp : u.Passes p.1) :
    (Point.ofResult u q p).Fit J u own :=
  ⟨hq, hu.step hp⟩

theorem close {q : Query} (hq : own q) (p : ρ × Option Nat) : J.Holds (u.close q p) fun _ => True :=
  J.bind (hu.stamp hq) fun _ _ => J.bind (J.surface ..) fun _ _ => J.pure trivial

theorem conclude {q : Query} (hq : own q) {p : ρ × Option Nat} (hp : u.Passes p.1) :
    J.Holds (u.conclude q p) fun _ => True := by
  have happly : J.Holds (u.apply p.1) fun _ => True :=
    J.bind (J.forIn (hu.step hp)) fun _ _ => J.pure trivial
  exact J.bind happly fun _ _ => hu.close hq p

omit hu in
/-- What the model gives passes the check. -/
theorem attempt (endpoint : Endpoint) (prompt : String) (checked : Nat) :
    J.Holds (u.attempt endpoint prompt checked) fun a => ∀ b, a.outcome = .ok b → u.Passes b.result :=
  J.bind (J.send ..) fun _ _ => J.pure fun _ hb => ⟨checked, check_of_judge hb⟩

omit hu in
theorem generateFrom (endpoint : Endpoint) (prompt : String) (left checked : Nat)
    (reasons : List Rejection) : J.Holds (u.generateFrom endpoint prompt left checked reasons) fun p =>
      u.Passes p.1.result := by
  induction left generalizing checked reasons with
  | zero => exact J.bind (J.notify _) fun _ _ => J.throw _
  | succ left ih =>
      refine J.bind (J.failIfCancelled _) fun _ _ => J.bind (attempt ..) fun a ha => ?_
      split
      · exact J.pure (ha _ ‹_›)
      · exact J.bind (J.notify _) fun _ _ => ih ..

theorem obtain {q : Query} (hq : own q) :
    J.Holds (u.obtain r q.node q.stale q.prompt) fun p => u.Passes p.1 := by
  refine J.bind (hu.cached hq) fun p hp => ?_
  obtain ⟨_ | a, checked⟩ := p
  · refine J.bind (generateFrom ..) fun p ha => ?_
    obtain ⟨a, n⟩ := p
    exact J.bind (hu.store hq ..) fun _ _ => J.pure ha
  · exact J.pure (hp a rfl)

theorem run : J.Holds (u.run r) fun _ => True :=
  J.bind hu.ask fun _ hq => J.bind (hu.obtain hq) fun _ hp => hu.conclude hq hp

omit hu in
theorem callOnce {q : Query} (hq : own q) (left checked : Nat) (reasons : List Rejection) :
    J.Holds (u.callOnce r q left checked reasons) (Point.Fit J u own) := by
  cases left with
  | zero => exact J.bind (J.notify _) fun _ _ => J.throw _
  | succ left =>
      refine J.bind (J.failIfCancelled _) fun _ _ => J.bind (attempt ..) fun a ha => ?_
      split
      · exact J.pure ⟨hq, ha _ ‹_›⟩
      · exact J.bind (J.notify _) fun _ _ => J.pure hq

/-- A step of a run leads to a point that the unit can come to. -/
theorem advance {p : Point ρ} (hp : p.Fit J u own) :
    J.Holds (u.advance r p) fun o => ∀ p', o = .inl p' → p'.Fit J u own := by
  cases p with
  | start =>
      refine J.bind hu.ask fun q hq => ?_
      have hlook : (Point.look q).Fit J u own := hq
      exact J.pure hlook.next
  | look q =>
      refine J.bind (hu.cached hp) fun p hc => ?_
      obtain ⟨_ | a, checked⟩ := p
      · have hcall : (Point.call q attemptBudget checked []).Fit J u own := hp
        exact J.pure hcall.next
      · exact J.pure (hu.fit_ofResult (p := (a, none)) hp (hc a rfl)).next
  | call q left checked reasons =>
      exact J.bind (callOnce hp ..) fun _ hp' => J.pure hp'.next
  | store q p =>
      obtain ⟨a, n⟩ := p
      exact J.bind (hu.store hp.1 ..) fun _ _ =>
        J.pure (hu.fit_ofResult (p := (a.result, some n)) hp.1 hp.2).next
  | apply q p rest =>
      cases rest with
      | nil => exact J.bind (hu.close hp.1 p) fun _ _ => J.pure (by simp)
      | cons x rest =>
          have hrest : (Point.apply q p rest).Fit J u own := ⟨hp.1, fun y hy => hp.2 y (.tail _ hy)⟩
          exact J.bind (hp.2 x (.head _)) fun _ _ => J.pure hrest.next

/-- From any point that the unit can come to, the rest of its run is judged well. -/
theorem finish {p : Point ρ} (hp : p.Fit J u own) : J.Holds (u.finish r p) fun _ => True := by
  cases p with
  | start => exact hu.run
  | look q => exact J.bind (hu.obtain hp) fun _ ha => hu.conclude hp ha
  | call q left checked reasons =>
      refine J.bind (generateFrom ..) fun p ha => ?_
      obtain ⟨a, n⟩ := p
      exact J.bind (hu.store hp ..) fun _ _ => hu.conclude (p := (a.result, some n)) hp ha
  | store q p =>
      obtain ⟨a, n⟩ := p
      exact J.bind (hu.store hp.1 ..) fun _ _ => hu.conclude (p := (a.result, some n)) hp.1 hp.2
  | apply q p rest => exact J.bind (J.forIn hp.2) fun _ _ => hu.close hp.1 p

end Fares

/-! ## Rows -/

/-- The unit of a lane fares well, and stands where it can come to. -/
def Lane.Fares (J : Judgement) (r : Runner) (l : Lane ρ) : Prop :=
  ∃ own, l.unit.Fares J r own ∧ ∀ p, l.stand = .going p → p.Fit J l.unit own

namespace Lane

variable {l : Lane ρ} {lanes : List (Lane ρ)}

/-- A unit that is not going. -/
theorem Fares.still (h : l.Fares J r) {s : Stand ρ} (hs : ∀ p, s ≠ .going p) :
    ({ l with stand := s } : Lane ρ).Fares J r := by
  obtain ⟨own, hu, -⟩ := h
  exact ⟨own, hu, fun p hp => absurd hp (hs p)⟩

theorem Fares.drop (h : l.Fares J r) : l.drop.Fares J r := by
  unfold Lane.drop
  split
  · exact h.still (by simp)
  · exact h

theorem finish_fares {own : Query → Prop} (hu : l.unit.Fares J r own) {p : Point ρ}
    (hp : p.Fit J l.unit own) : J.Holds (l.finish r p) (Lane.Fares J r) := by
  have hend := J.outcomeOf (hu.finish hp)
  exact J.bind hend fun _ _ => J.pure ⟨own, hu, by simp⟩

theorem Fares.release (h : l.Fares J r) : J.Holds (l.release r) (Lane.Fares J r) := by
  obtain ⟨own, hu, hl⟩ := h
  unfold Lane.release
  split
  · rename_i p hp
    exact J.ite (finish_fares hu (hl p hp)) (J.pure ⟨own, hu, hl⟩)
  · exact J.pure ⟨own, hu, hl⟩

theorem Fares.settle (h : l.Fares J r) (mayBegin : Bool) :
    J.Holds (l.settle r mayBegin) (Lane.Fares J r) := by
  obtain ⟨own, hu, hl⟩ := h
  unfold Lane.settle
  split
  · rename_i p hp
    exact finish_fares hu (hl p hp)
  · exact J.ite (finish_fares (p := .start) hu trivial) (J.pure (Fares.drop ⟨own, hu, hl⟩))
  · exact J.pure ⟨own, hu, hl⟩

theorem after_fares {own : Query → Prop} (hu : l.unit.Fares J r own)
    {o : Except Failure (Point ρ ⊕ UnitReport ρ)}
    (ho : ∀ a, o = .ok a → ∀ p, a = .inl p → p.Fit J l.unit own) : (l.after o).Fares J r := by
  obtain _ | p | _ := o
  · exact ⟨own, hu, by simp [Lane.after]⟩
  · refine ⟨own, hu, fun p' hp' => ?_⟩
    cases hp'
    exact ho _ rfl _ rfl
  · exact ⟨own, hu, by simp [Lane.after]⟩

end Lane

/-- Where one unit may run at a time, and where there is only one, the units run in order. -/
theorem runAll_eq {us : List (Work ρ)} (hone : r.concurrency ≤ 1 ∨ us.length ≤ 1) :
    runAll us r = us.mapM fun u => u.run r :=
  if_pos (by simpa using hone)

variable {lanes : List (Lane ρ)}

theorem fares_watch (h : ∀ l ∈ lanes, l.Fares J r) :
    J.Holds (watch lanes) fun lanes => ∀ l ∈ lanes, l.Fares J r := by
  unfold watch
  split
  · refine J.bind J.cancel fun _ _ => J.pure fun l hl => ?_
    obtain ⟨l', hl', rfl⟩ := List.mem_map.mp hl
    exact (h l' hl').drop
  · exact J.pure h

theorem fares_goOn (h : ∀ l ∈ lanes, l.Fares J r) (n : Nat) :
    J.Holds (goOn r lanes n) fun lanes => ∀ l ∈ lanes, l.Fares J r := by
  have put {l' : Lane ρ} (hl' : l'.Fares J r) : ∀ l ∈ lanes.set n l', l.Fares J r := fun l hl =>
    (List.mem_or_eq_of_mem_set hl).elim (h l) fun heq => heq ▸ hl'
  unfold goOn
  split
  · rename_i l hl
    obtain ⟨own, hu, hp⟩ := h l (List.mem_of_getElem? hl)
    split
    · have hstart : Lane.Fares J r { l with stand := .going .start } := by
        refine ⟨own, hu, fun p hp => ?_⟩
        cases hp
        trivial
      exact J.ite (J.pure (put hstart)) (J.pure h)
    · rename_i p hstand
      have hstep := J.outcomeOf (hu.advance (hp p hstand))
      exact J.ite (J.bind hstep fun _ ho => J.pure (put (Lane.after_fares hu ho))) (J.pure h)
    · exact J.pure h
  · exact J.pure h

/-- Whatever comes next in a row, its units fare well. -/
theorem fares_follow (h : ∀ l ∈ lanes, l.Fares J r) (cue : Cue) :
    J.Holds (follow r lanes cue) fun lanes => ∀ l ∈ lanes, l.Fares J r := by
  cases cue with
  | watch => exact fares_watch h
  | unit n => exact fares_goOn h n

theorem fares_settleAll (h : ∀ l ∈ lanes, l.Fares J r) (failed : Bool) :
    J.Holds (settleAll r failed lanes) fun _ => True := by
  induction lanes generalizing failed with
  | nil => exact J.pure trivial
  | cons l lanes ih =>
      refine J.bind ((h l (.head _)).settle _) fun l' _ => ?_
      have rest : J.Holds (settleAll r (failed || !l'.isDone) lanes >>= fun ls => Pure.pure (l' :: ls))
          fun _ => True :=
        J.bind (ih (fun l hl => h l (.tail _ hl)) _) fun _ _ => J.pure trivial
      exact J.ite (J.bind J.cancel fun _ _ => rest) rest

/-- A row of units that fare well is judged well, whatever its schedule is. -/
theorem Fares.runAll {us : List (Work ρ)} (hu : ∀ u ∈ us, ∃ own, u.Fares J r own) :
    J.Holds (runAll us r) fun _ => True := by
  have each : J.Holds (us.mapM fun u => u.run r) fun _ => True := by
    have hrow := Judgement.mapM (J := J) (Q := fun _ => True) (l := us) (g := fun u => u.run r) fun u h => by
      obtain ⟨own, h⟩ := hu u h
      exact h.run
    exact J.weaken (fun _ _ => trivial) hrow
  refine J.ite each ?_
  have start : ∀ l ∈ us.map fun u => ({ unit := u } : Lane ρ), l.Fares J r := by
    intro l hl
    obtain ⟨u, hmem, rfl⟩ := List.mem_map.mp hl
    obtain ⟨own, h⟩ := hu u hmem
    exact ⟨own, h, by simp⟩
  refine J.bind (J.reader (Q := fun _ => True) .get fun _ => trivial) fun w _ => ?_
  refine J.bind (J.foldlM (fun _ cue h => fares_follow h cue) _ start) fun lanes h => ?_
  refine J.bind (J.mapM fun l hl => (h l hl).release) fun lanes h => ?_
  exact J.bind (fares_settleAll h _) fun _ _ => J.reader (.lift _ _) fun _ => trivial

end Work

end IntentBuild
