import IntentBuild.Graph.Tree

/-!
# The cache of generations

Validated outputs are kept as records of the nodes of derived data.  A record is found by its
node, its tool and the digest of its prompt.  The digest alone is never trusted: a record answers
only for exactly the prompt that it was stored for.  So any function may serve as the digest.

Each node keeps a limited number of records for a tool.  Storing a record drops the oldest ones
beyond the limit, and never the record just stored.
-/

namespace IntentBuild

/-- A cache of generations. -/
structure Cache where
  /-- How many records a node keeps for a tool, at least one. -/
  limit : Nat
  /-- The digest of a prompt. -/
  digest : String → String := Sha256.hex

namespace Cache

/-- The cache with a limit, which has to be at least one. -/
def withLimit (limit : Int) : Except Failure Cache :=
  if limit < 1 then .error (.historyLimit limit) else .ok { limit := limit.toNat }

/-- The key of the record of a prompt. -/
def keyOf (c : Cache) (n : Node) (tool prompt : String) : RecordKey :=
  ⟨n.id, tool, c.digest prompt⟩

/-- The record of exactly this prompt, if there is one. -/
def lookup (c : Cache) (n : Node) (tool prompt : String) : Op (Option GenerationRecord) := do
  match ← Graph.findRecord? (c.keyOf n tool prompt) with
  | none => return none
  | some r =>
      if r.prompt == prompt then return some r
      else
        Op.notify (.otherPrompt n.name tool)
        return none

/-- The records of a node, of a tool where one is given, from the oldest to the newest. -/
def history (n : Node) (tool : Option String) : Op (List GenerationRecord) := Graph.records n tool

/-- Drops the oldest records beyond the limit, but for the record to be kept. -/
def prune (c : Cache) (n : Node) (tool keep : String) : Op Unit := do
  let others := (← history n (some tool)).filter fun r => r.id != keep
  for r in others.take (others.length + 1 - c.limit) do Graph.deleteRecord r.id

/-- Stores the output for a prompt. -/
def store (c : Cache) (n : Node) (tool prompt output : String) (json : Option Members) :
    Op GenerationRecord :=
  Op.transaction do
    let draft ← Op.complete
      (GenerationRecord.draft none n.id tool (c.digest prompt) prompt output json none)
    let r ← Graph.upsertRecord draft
    c.prune n tool r.id
    return r

/-- Deletes the record with the digest of a prompt, and says whether there was one. -/
def delete (c : Cache) (n : Node) (tool prompt : String) : Op Bool := do
  match ← Graph.findRecord? (c.keyOf n tool prompt) with
  | none => return false
  | some r => Graph.deleteRecord r.id; return true

/-- Deletes all records of a node, and counts them. -/
def invalidate (n : Node) : Op Nat := do
  let rs ← history n none
  Op.transaction do
    for r in rs do Graph.deleteRecord r.id
  return rs.length

end Cache

end IntentBuild
