import IntentBuild.Cache

/-!
# Units of work

A unit of work turns an input into a result.  Its prompt is built from the current state, and its
result is taken from the cache if there is one for exactly this prompt and the input has not
changed since.  Otherwise the model is called, at most five times, until an attempt gives a
result that fits the schema and passes the check of the stage.  A result is stored before it is
applied, step by step, and its diagnostics come last.

The build may be cancelled at any time.  This is noticed before a unit and before every attempt.
-/

namespace IntentBuild

/-- A unit of work with results of a type. -/
structure Work (ρ : Type) where
  /-- The name for people. -/
  label : String
  /-- The tool. -/
  tool : ToolConfig
  /-- The role that goes ahead of the prompt. -/
  role : String
  /-- Builds the prompt. -/
  prompt : Op String
  /-- The node of derived data that records belong to, made if need be. -/
  node : Op Node
  /-- The schema of the results. -/
  schema : ResultSchema ρ
  /-- The check of the stage, given how many results of this run were checked before. -/
  check : Nat → ρ → Except StageRejection Unit
  /-- The steps that write files and change the graph for a result. -/
  steps : ρ → List (Op Unit)
  /-- The input file. -/
  source : Option Path

/-- A result that an attempt gave. -/
structure Accepted (ρ : Type) where
  /-- The text of the reply. -/
  text : String
  /-- The result. -/
  result : ρ

/-- What an attempt gave, and how many results of the run were checked after it. -/
structure Attempt (ρ : Type) where
  /-- The result, or why there is none. -/
  outcome : Except Rejection (Accepted ρ)
  /-- How many results were checked. -/
  checked : Nat

/-- What a unit gave. -/
structure UnitReport (ρ : Type) where
  /-- The name of the unit. -/
  label : String
  /-- The result. -/
  result : ρ
  /-- The result was taken from the cache. -/
  cached : Bool
  /-- How many attempts were made. -/
  attempts : Nat

/-- How many attempts a unit has. -/
def attemptBudget : Nat := 5

/-- What happens next in a row of units that run at a time. -/
inductive Cue where
  /-- The caller looks at what has come of the units. -/
  | watch
  /-- The unit with a number begins or goes on. -/
  | unit (n : Nat)

/-- What units need to run. -/
structure Runner where
  /-- The cache. -/
  cache : Cache
  /-- The endpoint. -/
  endpoint : Endpoint
  /-- How many units run at a time. -/
  concurrency : Nat
  /-- What happens in turn where units run at a time, from a workspace on.  After the last cue those that
  have begun go on in order. -/
  schedule : Workspace → List Cue := fun _ => []

namespace Work

variable {ρ : Type}

/-- Fails when the build is cancelled. -/
def failIfCancelled (place : String) : Op Unit := do
  if (← get).cancelled then throw (.build (.cancelled place))

/-- Calls an endpoint. -/
def send (endpoint : Endpoint) (c : Call) : Op Outcome := modifyGet fun w =>
  let a := endpoint w.calls c
  (a.outcome, { w with calls := c :: w.calls, cancelled := w.cancelled || a.cancels })

/-- The text of a reply. -/
def replyText (parts : List String) : String := Text.trim (Text.joinWith "\n" parts)

/-- The result that an outcome of a call gives for a unit. -/
def judge (u : Work ρ) (checked : Nat) : Outcome → Attempt ρ
  | .raised name text => ⟨.error (.raised name text), checked⟩
  | .status s details => ⟨.error (.status s details), checked⟩
  | .texts parts =>
      let text := replyText parts
      match Reply.extract text with
      | .error f => ⟨.error (.reply f), checked⟩
      | .ok ms =>
          match Reply.validate u.schema (.obj ms) with
          | .error f => ⟨.error (.reply f), checked⟩
          | .ok r =>
              match u.check checked r with
              | .error e => ⟨.error (.stage e), checked + 1⟩
              | .ok _ => ⟨.ok ⟨text, r⟩, checked + 1⟩

/-- Calls the model once. -/
def attempt (u : Work ρ) (endpoint : Endpoint) (prompt : String) (checked : Nat) :
    Op (Attempt ρ) := do
  return u.judge checked (← send endpoint (Call.ofPrompt u.tool u.role prompt))

/-- Calls the model until an attempt gives a result.  `left` attempts are left, and the reasons
of those made stand in order. -/
def generateFrom (u : Work ρ) (endpoint : Endpoint) (prompt : String) :
    (left : Nat) → (checked : Nat) → List Rejection → Op (Accepted ρ × Nat)
  | 0, _, reasons => do
      Op.notify (.givingUp u.label attemptBudget)
      throw (.build (.generation u.label reasons))
  | left + 1, checked, reasons => do
      let n := attemptBudget - left
      failIfCancelled ("before attempt " ++ Nat.repr n ++ " of " ++ u.label)
      let a ← u.attempt endpoint prompt checked
      match a.outcome with
      | .ok r => return (r, n)
      | .error e =>
          Op.notify (.attemptFailed u.label n attemptBudget e)
          generateFrom u endpoint prompt left a.checked (reasons ++ [e])

/-- Calls the model until an attempt gives a result, and counts the attempts. -/
def generate (u : Work ρ) (endpoint : Endpoint) (prompt : String) (checked : Nat) :
    Op (Accepted ρ × Nat) :=
  u.generateFrom endpoint prompt attemptBudget checked []

/-- The input has changed since the node was made. -/
def isStale (n : Node) (changed : Option Stamp) : Except Failure Bool :=
  match changed, n.contentUpdated with
  | none, _ => .ok false
  | some _, none => .ok true
  | some s, some t => if s.comparable t then .ok (!s.le t) else .error .illTyped

/-- The result that a record gives, if it still fits, and how many results were checked. -/
def ofRecord (u : Work ρ) : Option GenerationRecord → Option ρ × Nat
  | none => (none, 0)
  | some r =>
      match r.json with
      | none => (none, 0)
      | some ms =>
          match Reply.validate u.schema (.obj ms) with
          | .error _ => (none, 0)
          | .ok a =>
              match u.check 0 a with
              | .error _ => (none, 1)
              | .ok _ => (some a, 1)

/-- The result that the cache has for a prompt, and how many results were checked. -/
def cached (u : Work ρ) (cache : Cache) (n : Node) (stale : Bool) (prompt : String) :
    Op (Option ρ × Nat) := do
  if stale then return (none, 0)
  else return u.ofRecord (← cache.lookup n u.tool.toolId prompt)

/-- The result for a prompt, from the cache or from the model, with the count of attempts. -/
def obtain (u : Work ρ) (r : Runner) (n : Node) (stale : Bool) (prompt : String) :
    Op (ρ × Option Nat) := do
  match ← u.cached r.cache n stale prompt with
  | (some a, _) => return (a, none)
  | (none, checked) =>
      let (accepted, attempts) ← u.generate r.endpoint prompt checked
      let _ ← r.cache.store n u.tool.toolId prompt accepted.text
        (u.schema.toJson accepted.result).members?
      return (accepted.result, some attempts)

/-- Reports the diagnostics of a result.  Errors fail the unit. -/
def surface (label : String) (d : Diagnostics) : Op Unit := do
  for m in d.warnings do Op.notify (.warned label m)
  for m in d.errors do Op.notify (.failed label m)
  if !d.errors.isEmpty then throw (.build (.diagnostics label d.errors.length))

/-- The time of the last change of the input, if there is one. -/
def inputTime (u : Work ρ) : Op (Option Stamp) :=
  match u.source with
  | some p => some <$> Op.changedAt p
  | none => return none

/-- Stamps a node with the time of the input that it was made from. -/
def stamp (n : Node) : Option Stamp → Op Unit
  | some s => do let _ ← Graph.setContent n .keep .keep (.put (some s))
  | none => return ()

/-- Applies a result. -/
def apply (u : Work ρ) (a : ρ) : Op Unit := do for step in u.steps a do step

/-! ## Runs -/

/-- What a unit looks for a result with. -/
structure Query where
  /-- The prompt. -/
  prompt : String
  /-- The time of the last change of the input. -/
  changed : Option Stamp
  /-- The node of derived data. -/
  node : Node
  /-- The input has changed since the node was made. -/
  stale : Bool

/-- The part of a run before a result is looked for. -/
def ask (u : Work ρ) : Op Query := do
  failIfCancelled ("before " ++ u.label)
  let prompt ← u.prompt
  let changed ← u.inputTime
  let node ← u.node
  let stale ← Op.lift (fun e => e) (isStale node changed)
  return { prompt, changed, node, stale }

/-- The end of a run, after the result was applied, which comes with the count of attempts. -/
def close (u : Work ρ) (q : Query) (p : ρ × Option Nat) : Op (UnitReport ρ) := do
  stamp q.node q.changed
  surface u.label (u.schema.diagnostics p.1)
  return { label := u.label, result := p.1, cached := p.2.isNone, attempts := p.2.getD 0 }

/-- The part of a run after a result was obtained. -/
def conclude (u : Work ρ) (q : Query) (p : ρ × Option Nat) : Op (UnitReport ρ) := do
  u.apply p.1
  u.close q p

/-- Runs a unit. -/
def run (u : Work ρ) (r : Runner) : Op (UnitReport ρ) := do
  let q ← u.ask
  u.conclude q (← u.obtain r q.node q.stale q.prompt)

end Work

end IntentBuild
