import IntentBuild.Build.Compilation
import IntentBuild.Build.Lowering
import IntentBuild.Build.Plan

/-!
# Builds

A build prepares its context, takes stage after stage from its plan, and ends with a summary.
Before it starts, the file of the dependencies must not have drifted from the graph.  When a
refresh of the dependencies changes them, the build plans anew, but only a limited number of
times.

The steps of a build are limited as well: the preparation, every stage, and the end count as a
step each, and a build with no step left over fails.
-/

namespace IntentBuild

/-- What a build needs. -/
structure Services where
  /-- The settings. -/
  settings : Settings
  /-- The models of the tools. -/
  tools : ToolSelection
  /-- The endpoint. -/
  endpoint : Endpoint
  /-- What happens in turn where units run at a time. -/
  schedule : Workspace → List Cue := fun _ => []

namespace Build

/-- What units need to run. -/
def runner (s : Services) : Except Failure Runner := do
  let cache ← Cache.withLimit s.settings.historyLimit
  if s.settings.maxConcurrency < 1 then
    throw (.build (.concurrency s.settings.maxConcurrency))
  return { cache, endpoint := s.endpoint, concurrency := s.settings.maxConcurrency.toNat,
           schedule := s.schedule }

/-- Prepares the context of a build of a project. -/
def prepare (s : Services) (project : Project) : Op BuildContext := do
  DepsFile.verify project.node
  let extensions ← Registry.installed project.node
  return { project, extensions, tools := s.tools, runner := ← Op.lift (fun e => e) (runner s) }

/-- Runs a stage. -/
def runStage (c : BuildContext) : Stage → Op StageReport
  | .techStack => TechStack.run c
  | .lowering => Lowering.run c
  | .refresh => do
      let s ← DepsFile.sync c.project.node
      return { stage := .refresh, depsUpdated := s.changed }
  | .indexing => Indexing.run c
  | .compilation => Compilation.run c

/-- The plan after a stage gave its report.  Changed dependencies ask for a new plan, which the
limit may forbid. -/
def afterStage (limit : Int) (p : Plan) (r : StageReport) : Plan × Except Failure Bool :=
  let p := p.report r
  if r.depsUpdated then
    if limit ≤ p.replans then (p, .error (.build (.restless p.replans)))
    else (p.replan, .ok (!p.replan.pending.isEmpty))
  else (p, .ok (!p.pending.isEmpty))

/-- Runs the next stage of a plan.  Gives the plan after it, and whether there is more to run or
why the build fails. -/
def advance (limit : Int) (c : BuildContext) (p : Plan) : Op (Plan × Except Failure Bool) := do
  match ← outcomeOf (Work.failIfCancelled "between stages") with
  | .error e => return (p, .error e)
  | .ok _ =>
      match p.pop with
      | (none, p) => return (p, .ok false)
      | (some stage, p) =>
          match ← outcomeOf (runStage c stage) with
          | .error e => return (p, .error e)
          | .ok r => return afterStage limit p r

/-- Runs the stages of a plan with some steps left.  One step is for the end, and one has to be
left over. -/
def advanceAll (settings : Settings) (c : BuildContext) : (left : Nat) → Plan → Op Plan
  | 0, _ => throw (.build (.steps settings.recursionLimit))
  | left + 1, p => do
      match ← advance settings.maxReplans c p with
      | (_, .error e) => throw e
      | (p, .ok true) => advanceAll settings c left p
      | (p, .ok false) =>
          if left < 2 then throw (.build (.steps settings.recursionLimit)) else return p

/-- Starts a build of the project with a name. -/
def start (s : Services) (name : String) : Op BuildContext := do
  let project ← Project.require name
  if s.settings.recursionLimit < 1 then
    throw (.build (.stepLimit s.settings.recursionLimit))
  prepare s project

/-- Builds a project with a plan. -/
def run (s : Services) (name : String) (plan : Plan) : Op BuildSummary := do
  let c ← start s name
  let p ← advanceAll s.settings c (s.settings.recursionLimit - 1).toNat plan
  return .ofPlan c.project.node.name p

/-- Builds a project with a token of cancellation of its own, which its owner may have used
already. -/
def launch (cancelled : Bool) (s : Services) (name : String) (plan : Plan) : Op BuildSummary := do
  modify fun w => { w with cancelled }
  run s name plan

end Build

end IntentBuild
