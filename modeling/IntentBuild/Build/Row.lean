import IntentBuild.Build.Work

/-!
# Rows of units

A stage has a row of units.  Where one unit may run at a time, they run in order, and the first
failure ends the row.

Where several units may run at a time, every unit has a lane.  The units begin in their order, as
many of them going at once as may run at a time, and what happens next is up to a schedule: a unit that
is going takes a step of its run (`Work.advance`), or the caller, who waits for the units in their
order, looks at what has come of them.  Each step of a unit is done at once: it looks for a prompt,
looks into the cache, calls the model, stores a result, takes a step to apply a result, or comes to
its end.  From the look into the cache to the storing of a result a unit holds its node, and no other
unit with this node looks meanwhile.

When the caller finds the first unit that has not come to a good end to have failed, the build is
cancelled, and no other unit begins.  Those that are going go on until they notice.
-/

namespace IntentBuild

namespace Build

/-- The result or the failure of an operation. -/
def outcomeOf {α : Type} (body : Op α) : Op (Except Failure α) :=
  tryCatch (Except.ok <$> body) fun e => return .error e

end Build

namespace Work

variable {ρ : Type}

/-- How far the run of a unit has come. -/
inductive Point (ρ : Type) where
  /-- Nothing was done. -/
  | start
  /-- A result is to be looked for in the cache. -/
  | look (q : Query)
  /-- The model is to be called, as often as attempts are left. -/
  | call (q : Query) (left checked : Nat) (reasons : List Rejection)
  /-- A result that an attempt gave is to be stored. -/
  | store (q : Query) (p : Accepted ρ × Nat)
  /-- Some steps are left to apply a result. -/
  | apply (q : Query) (p : ρ × Option Nat) (rest : List (Op Unit))

/-- The node that a unit holds. -/
def Point.held? : Point ρ → Option String
  | .call q .. | .store q _ => some q.node.id
  | _ => none

/-- The point from which a result is applied. -/
def Point.ofResult (u : Work ρ) (q : Query) (p : ρ × Option Nat) : Point ρ :=
  .apply q p (u.steps p.1)

/-- A call of the model, with what comes after it. -/
def callOnce (u : Work ρ) (r : Runner) (q : Query) :
    (left checked : Nat) → List Rejection → Op (Point ρ)
  | 0, _, reasons => do
      Op.notify (.givingUp u.label attemptBudget)
      throw (.build (.generation u.label reasons))
  | left + 1, checked, reasons => do
      let n := attemptBudget - left
      failIfCancelled ("before attempt " ++ Nat.repr n ++ " of " ++ u.label)
      let a ← u.attempt r.endpoint q.prompt checked
      match a.outcome with
      | .ok b => return .store q (b, n)
      | .error e =>
          Op.notify (.attemptFailed u.label n attemptBudget e)
          return .call q left a.checked (reasons ++ [e])

/-- Takes a step of a run, which leads to the next point or to the end. -/
def advance (u : Work ρ) (r : Runner) : Point ρ → Op (Point ρ ⊕ UnitReport ρ)
  | .start => return .inl (.look (← u.ask))
  | .look q => do
      match ← u.cached r.cache q.node q.stale q.prompt with
      | (some a, _) => return .inl (.ofResult u q (a, none))
      | (none, checked) => return .inl (.call q attemptBudget checked [])
  | .call q left checked reasons => return .inl (← u.callOnce r q left checked reasons)
  | .store q (a, n) => do
      let _ ← r.cache.store q.node u.tool.toolId q.prompt a.text
        (u.schema.toJson a.result).members?
      return .inl (.ofResult u q (a.result, some n))
  | .apply q p (step :: rest) => do
      step
      return .inl (.apply q p rest)
  | .apply q p [] => return .inr (← u.close q p)

/-- Runs a unit from a point to its end. -/
def finish (u : Work ρ) (r : Runner) : Point ρ → Op (UnitReport ρ)
  | .start => u.run r
  | .look q => do u.conclude q (← u.obtain r q.node q.stale q.prompt)
  | .call q left checked reasons => do
      let (a, n) ← u.generateFrom r.endpoint q.prompt left checked reasons
      let _ ← r.cache.store q.node u.tool.toolId q.prompt a.text
        (u.schema.toJson a.result).members?
      u.conclude q (a.result, some n)
  | .store q (a, n) => do
      let _ ← r.cache.store q.node u.tool.toolId q.prompt a.text
        (u.schema.toJson a.result).members?
      u.conclude q (a.result, some n)
  | .apply q p rest => do
      for step in rest do step
      u.close q p

/-- What has become of a unit of a row. -/
inductive Stand (ρ : Type) where
  /-- The unit has not begun. -/
  | waiting
  /-- The unit is at a point of its run. -/
  | going (p : Point ρ)
  /-- The unit has come to its end. -/
  | ended (o : Except Failure (UnitReport ρ))
  /-- The unit will not begin. -/
  | dropped

/-- The lane of a unit. -/
structure Lane (ρ : Type) where
  /-- The unit. -/
  unit : Work ρ
  /-- What has become of it. -/
  stand : Stand ρ := .waiting

namespace Lane

/-- The unit has not begun. -/
def isWaiting (l : Lane ρ) : Bool :=
  match l.stand with
  | .waiting => true
  | _ => false

/-- The unit is going. -/
def isGoing (l : Lane ρ) : Bool :=
  match l.stand with
  | .going _ => true
  | _ => false

/-- The unit has come to a good end. -/
def isDone (l : Lane ρ) : Bool :=
  match l.stand with
  | .ended (.ok _) => true
  | _ => false

/-- The unit holds a node. -/
def holds (id : String) (l : Lane ρ) : Bool :=
  match l.stand with
  | .going p => p.held? == some id
  | _ => false

/-- The lane of a unit that will not begin any more. -/
def drop (l : Lane ρ) : Lane ρ := if l.isWaiting then { l with stand := .dropped } else l

/-- The lane after what came of a step. -/
def after (l : Lane ρ) : Except Failure (Point ρ ⊕ UnitReport ρ) → Lane ρ
  | .ok (.inl p) => { l with stand := .going p }
  | .ok (.inr report) => { l with stand := .ended (.ok report) }
  | .error e => { l with stand := .ended (.error e) }

/-- The unit runs to its end. -/
def finish (r : Runner) (l : Lane ρ) (p : Point ρ) : Op (Lane ρ) := do
  return { l with stand := .ended (← Build.outcomeOf (l.unit.finish r p)) }

/-- The unit runs to its end if it holds a node. -/
def release (r : Runner) (l : Lane ρ) : Op (Lane ρ) :=
  match l.stand with
  | .going p => if p.held?.isSome then l.finish r p else return l
  | _ => return l

/-- The unit runs to its end, if it has begun or may begin yet. -/
def settle (r : Runner) (mayBegin : Bool) (l : Lane ρ) : Op (Lane ρ) :=
  match l.stand with
  | .going p => l.finish r p
  | .waiting => if mayBegin then l.finish r .start else return l.drop
  | _ => return l

/-- The unit may go on from a point: no other one holds the node that it is to look with. -/
def isFree (lanes : List (Lane ρ)) : Point ρ → Bool
  | .look q => !lanes.any (holds q.node.id)
  | _ => true

end Lane

/-- The unit with a number may begin: those before it have begun, and not too many are going. -/
def mayBegin (limit : Nat) (lanes : List (Lane ρ)) (n : Nat) : Bool :=
  !(lanes.take n).any Lane.isWaiting && (lanes.filter Lane.isGoing).length < limit

/-- Cancels the build. -/
def cancel : Op Unit := modify fun w => { w with cancelled := true }

/-- The caller finds that a unit has failed, while all before it have come to a good end. -/
def watch (lanes : List (Lane ρ)) : Op (List (Lane ρ)) := do
  match lanes.dropWhile Lane.isDone with
  | { stand := .ended _, .. } :: _ =>
      cancel
      return lanes.map Lane.drop
  | _ => return lanes

/-- A unit begins or goes on, if it may. -/
def goOn (r : Runner) (lanes : List (Lane ρ)) (n : Nat) : Op (List (Lane ρ)) := do
  match lanes[n]? with
  | some l =>
      match l.stand with
      | .waiting =>
          if mayBegin r.concurrency lanes n then
            return lanes.set n { l with stand := .going .start }
          else return lanes
      | .going p =>
          if Lane.isFree lanes p then
            return lanes.set n (l.after (← Build.outcomeOf (l.unit.advance r p)))
          else return lanes
      | _ => return lanes
  | none => return lanes

/-- Does what comes next. -/
def follow (r : Runner) (lanes : List (Lane ρ)) : Cue → Op (List (Lane ρ))
  | .watch => watch lanes
  | .unit n => goOn r lanes n

/-- All units that have begun run to their ends in order, and so do those that have not, as long as
none has failed.  The first failure cancels the build. -/
def settleAll (r : Runner) : (failed : Bool) → List (Lane ρ) → Op (List (Lane ρ))
  | _, [] => return []
  | failed, l :: lanes => do
      let l ← l.settle r !failed
      if !failed && !l.isDone then cancel
      return l :: (← settleAll r (failed || !l.isDone) lanes)

/-- The reports of the units, or the first failure in their order. -/
def reports : List (Lane ρ) → Except Failure (List (UnitReport ρ))
  | [] => .ok []
  | { stand := .ended (.ok report), .. } :: lanes => return report :: (← reports lanes)
  | { stand := .ended (.error e), .. } :: _ => .error e
  | _ :: lanes => reports lanes

/-- Runs units at a time, as the schedule has it.  Where it ends, those units go on first that hold a
node. -/
def runLanes (us : List (Work ρ)) (r : Runner) : Op (List (UnitReport ρ)) := do
  let lanes ← (r.schedule (← get)).foldlM (follow r) (us.map fun u => { unit := u })
  let lanes ← lanes.mapM (Lane.release r)
  Op.lift (fun e => e) (reports (← settleAll r false lanes))

/-- Runs the units of a row. -/
def runAll (us : List (Work ρ)) (r : Runner) : Op (List (UnitReport ρ)) :=
  if r.concurrency ≤ 1 || us.length ≤ 1 then us.mapM fun u => u.run r else runLanes us r

end Work

end IntentBuild
