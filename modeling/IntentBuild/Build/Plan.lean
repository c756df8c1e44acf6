import IntentBuild.Build.Stage

/-!
# Build plans

A plan is a row of stages with a cursor before the next one.  When the dependencies change, what
is still to run is replaced by the whole default sequence, so that every prompt sees the new
dependencies.
-/

namespace IntentBuild

/-- A build plan. -/
structure Plan where
  /-- The stages. -/
  stages : List Stage
  /-- How many stages have been taken. -/
  cursor : Nat := 0
  /-- How often the build was planned anew. -/
  replans : Nat := 0
  /-- The reports of the stages that ran. -/
  reports : List StageReport := []
deriving DecidableEq, Repr

namespace Plan

/-- The stages of a build, in order. -/
def defaultStages : List Stage :=
  [.techStack, .lowering, .refresh, .indexing, .compilation, .refresh]

/-- The plan of a build. -/
def default : Plan := { stages := defaultStages }

/-- The stages that are still to run. -/
def pending (p : Plan) : List Stage := p.stages.drop p.cursor

/-- The next stage, if there is one, and the plan after it was taken. -/
def pop (p : Plan) : Option Stage × Plan :=
  match p.stages[p.cursor]? with
  | some s => (some s, { p with cursor := p.cursor + 1 })
  | none => (none, p)

/-- The plan with the default sequence in place of what is still to run. -/
def replan (p : Plan) : Plan :=
  { p with stages := p.stages.take p.cursor ++ defaultStages, replans := p.replans + 1 }

/-- The plan that a JSON object describes, with the default stages if it names none. -/
def ofJson (v : Json) : Plan :=
  { stages := match v.get "stages" with
      | .arr names => names.filterMap fun s => Stage.ofText? s.text
      | _ => defaultStages
    cursor := ((v.get "cursor").int?.getD 0).toNat
    replans := ((v.get "replans").int?.getD 0).toNat }

/-- The members of the description of a plan, with the stages that are still to run. -/
def toMembers (p : Plan) : Members :=
  [("stages", .ofStrings (p.stages.map Stage.text)), ("cursor", .ofNat p.cursor),
    ("replans", .ofNat p.replans), ("pending", .ofStrings (p.pending.map Stage.text))]

/-- The plan with another report. -/
def report (p : Plan) (r : StageReport) : Plan := { p with reports := p.reports ++ [r] }

end Plan

/-- What a build did. -/
structure BuildSummary where
  /-- The name of the project. -/
  project : String
  /-- How many stages ran. -/
  stagesRun : Nat
  /-- How often the build was planned anew. -/
  replans : Nat
  /-- How many units ran. -/
  units : Nat
  /-- How many of them took their result from the cache. -/
  cacheHits : Nat
  /-- How many of them called the model. -/
  generated : Nat
  /-- The reports of the stages. -/
  reports : List StageReport
deriving DecidableEq, Repr

/-- The summary of a finished plan. -/
def BuildSummary.ofPlan (project : String) (p : Plan) : BuildSummary :=
  let total (count : StageReport → Nat) : Nat := p.reports.foldl (fun n r => n + count r) 0
  { project
    stagesRun := p.reports.length
    replans := p.replans
    units := total StageReport.units
    cacheHits := total StageReport.cacheHits
    generated := total StageReport.generated
    reports := p.reports }

/-- The description of a summary, without the reports. -/
def BuildSummary.toJson (s : BuildSummary) : Json :=
  .obj [("project", .str s.project), ("stages_run", .ofNat s.stagesRun),
    ("replans", .ofNat s.replans), ("units", .ofNat s.units), ("cache_hits", .ofNat s.cacheHits),
    ("generated", .ofNat s.generated)]

end IntentBuild
