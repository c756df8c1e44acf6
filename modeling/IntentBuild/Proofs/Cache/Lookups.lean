import IntentBuild.Proofs.Graph.Outcome
import IntentBuild.Proofs.Operation.Session
import Mathlib.Data.List.Induction

/-!
# What the cache gives

Nothing is asked of the digest of a cache: where two prompts have the same digest, storing the one
puts its record in place of the record of the other.  So a record that is found keeps what was
stored last for exactly its node, its tool and its prompt (`lookup_after_session`), whatever was
stored, deleted, created or failed before.
-/

namespace IntentBuild

open Op
open Assoc (keys)

/-- Changes that store no record. -/
def Regime.unrecorded : Regime := .only fun e => ¬ e.Records

namespace Cache

variable {w w' : Workspace}

/-- Records that are there keep a condition that holds of all records that come. -/
theorem records_reach {G : GenerationRecord → Prop}
    (h : Reach (fun e => ∀ q, e = .record q → G q) w w')
    (hw : ∀ {i r}, Assoc.get? i w.tables.records = some r → G r) :
    ∀ {i r}, Assoc.get? i w'.tables.records = some r → G r := by
  induction h with
  | refl => exact hw
  | @step w₁ w₂ e _ he hs ih =>
      intro i r hr
      cases hs with
      | node h => obtain ⟨rfl, -⟩ := Tables.insertNode_eq_ok h; exact ih hr
      | edge h => obtain ⟨rfl, -⟩ := Tables.insertEdge_eq_ok h; exact ih hr
      | @record q s h hs =>
          change Assoc.get? i (Assoc.set _ _ w₁.tables.records) = some r at hr
          rw [Assoc.get?_set] at hr
          split at hr
          · cases hr
            exact he.resolve_left id _ rfl
          · exact ih hr
      | @dropRecord _ q h =>
          change Assoc.get? i (Assoc.erase q.id w₁.tables.records) = some r at hr
          rw [Assoc.get?_erase] at hr
          split at hr
          · cases hr
          · exact ih hr
      | _ => exact ih hr

/-- Without stored records no record comes. -/
theorem record_of_reach (hw : w.Sound) (h : Reach (fun e => ¬ e.Records) w w') {i : String}
    {r : GenerationRecord} (hr : Assoc.get? i w'.tables.records = some r) :
    Assoc.get? i w.tables.records = some r := by
  have hclass : Reach (fun e => ∀ q, e = .record q → Assoc.get? q.id w.tables.records = some q)
      w w' := by
    refine h.mono fun e he q hq => ?_
    subst hq
    exact absurd trivial he
  have hrecord := records_reach hclass (fun {i r} hr => (hw.wellFormed.records.owned hr).symm ▸ hr) hr
  rwa [(h.sound hw).wellFormed.records.owned hr] at hrecord

/-- A record stays while it is not dropped and none is stored. -/
theorem lasts_record (q : GenerationRecord) : Lasts (fun e => e ≠ .dropRecord q ∧ ¬ e.Records)
    fun w => Assoc.get? q.id w.tables.records = some q := by
  intro e w w' he hw h hq
  cases h with
  | node h =>
      obtain ⟨rfl, -⟩ := Tables.insertNode_eq_ok h
      exact hq
  | edge h =>
      obtain ⟨rfl, -⟩ := Tables.insertEdge_eq_ok h
      exact hq
  | record => exact absurd trivial (he.resolve_left id).2
  | @dropRecord _ r h =>
      change Assoc.get? q.id (Assoc.erase r.id w.tables.records) = some q
      rw [Assoc.get?_erase, if_neg, hq]
      intro hid
      rw [hid, h, Option.some.injEq] at hq
      exact (he.resolve_left id).1 (hq ▸ rfl)
  | _ => exact hq

/-- Pruning spares the record that is to be kept. -/
theorem runs_prune_keeps (c : Cache) (n : Node) (tool : String) {q : GenerationRecord}
    (hq : Assoc.get? q.id w.tables.records = some q) :
    Runs (fun e => e ≠ .dropRecord q ∧ ¬ e.Records) w (c.prune n tool q.id) fun _ w' =>
      Assoc.get? q.id w'.tables.records = some q := by
  have hsafe : Safe (.only fun e => e ≠ .dropRecord q ∧ ¬ e.Records) (c.prune n tool q.id) := by
    refine .reader (Graph.reader_records _ _) fun all => .bind (.forIn fun r hr => .once ?_) fun _ => .pure _
    have hne : r.id ≠ q.id := by
      have hmem := List.mem_filter.mp (List.mem_of_mem_take hr)
      simpa using hmem.2
    refine .of_runs fun w _ hw => Graph.runs_deleteRecord (fun r' hr' => ⟨fun heq => ?_, id⟩) hw
    cases heq
    exact hne (hw.wellFormed.records.owned hr').symm
  intro hw
  exact ((hsafe.runs w trivial).weaken fun _ _ hr _ => Lasts.reach (lasts_record q) hw hr hq) hw

/-! ## Storing -/

variable (c : Cache) (n : Node) (tool prompt output : String) (json : Option Members)

/-- The record that is drafted for an output. -/
theorem complete_draft (w : Workspace) : ∃ q s,
      (complete (GenerationRecord.draft none n.id tool (c.digest prompt) prompt output json none)).run w =
        .ok q { w with supply := s } ∧
      w.supply.Takes s q.id ∧ q.nodeId = n.id ∧
      (q.created = .universal w.supply.nextTime ∧ w.supply.nextTime < s.nextTime) ∧
      ∀ t : Tables, Stored c.digest n.id tool prompt output json (t.kept q) :=
  ⟨_, _, rfl, Graph.takes_draftRecord .., rfl, ⟨rfl, Int.lt_succ _⟩,
    fun t => stored_kept c n.id tool prompt output json t _⟩

/-- Where the node is gone, storing changes no table. -/
theorem store_after_of_absent {n : Node} (hw : w.Sound) (hn : n.id ∉ keys w.tables.nodes) :
    ((c.store n tool prompt output json).after w).tables = w.tables := by
  obtain ⟨q, s, hdraft, htakes, hid, -, -⟩ :=
    complete_draft c n tool prompt output json (w.atDepth (w.graph.depth + 1))
  have hrefused : w.tables.upsertRecord q = .error (.noRecordNode q.nodeId) := by
    rw [Tables.upsertRecord, Assoc.has_eq_false_iff.mpr (hid ▸ hn)]
    rfl
  have hreach : Reach Event.None w { w.atDepth (w.graph.depth + 1) with supply := s } :=
    .step (.quiet (e := .depth) trivial (.depth w _)) (e := .supply) (.inl trivial)
      (.supply _ htakes.le)
  have htables : { w.atDepth (w.graph.depth + 1) with supply := s }.tables = w.tables := rfl
  generalize { w.atDepth (w.graph.depth + 1) with supply := s } = w₁ at hdraft hreach htables
  have hupsert : (Graph.upsertRecord q).run w₁ = .error (.graph (.noRecordNode q.nodeId)) w₁ := by
    have hread : tables.run w₁ = .ok w₁.tables w₁ := rfl
    rw [Graph.upsertRecord, bind_ok hread, htables, hrefused]
    rfl
  unfold store
  rw [after_transaction, after_bind_ok hdraft, after_bind_error hupsert]
  exact (hreach.trans (reach_endTransaction (hreach.sound hw))).tables_of_quiet

/-- Where the node is there, a record with the time of now is stored, and then the older ones beyond
the limit go, all in one transaction. -/
theorem store_after_prune {n : Node} (hn : n.id ∈ keys w.tables.nodes) :
    ∃ q w₁ w₂, Stored c.digest n.id tool prompt output json q ∧
      (q.created = .universal w.supply.nextTime ∧ w.supply.nextTime < w₂.supply.nextTime) ∧
      Reach Event.None w w₁ ∧ Happens (.record q) w₁ w₂ ∧ w₂.graph.depth ≠ 0 ∧
      (c.store n tool prompt output json).after w =
        endTransaction.after ((c.prune n tool q.id >>= fun _ => pure q).after w₂) := by
  have hreach : Reach Event.None w (w.atDepth (w.graph.depth + 1)) :=
    .quiet (e := .depth) trivial (.depth w _)
  obtain ⟨q, s, hdraft, htakes, hid, ⟨hcreated, hnow⟩, hstored⟩ :=
    complete_draft c n tool prompt output json (w.atDepth (w.graph.depth + 1))
  have hupsert : (Graph.upsertRecord q).run { w.atDepth (w.graph.depth + 1) with supply := s } =
      .ok (w.tables.kept q) ({ w.atDepth (w.graph.depth + 1) with supply := s }.withTables
        (w.tables.setRecord (w.tables.kept q))) := by
    have hread : tables.run { w.atDepth (w.graph.depth + 1) with supply := s } =
        .ok w.tables { w.atDepth (w.graph.depth + 1) with supply := s } := rfl
    rw [Graph.upsertRecord, bind_ok hread, Tables.upsertRecord_of (hid ▸ hn), bind_ok (lift_ok ..)]
    exact bind_ok ((commit_eq ..).trans (if_neg (Nat.succ_ne_zero w.graph.depth)))
  have hrecord := Happens.record (w := w.atDepth (w.graph.depth + 1)) (hid ▸ hn) htakes
  refine ⟨w.tables.kept q, _, _, hstored _, ⟨(Tables.kept_created q).trans hcreated, ?_⟩, hreach,
    hrecord, Nat.succ_ne_zero _, ?_⟩
  · exact hnow
  unfold store
  rw [after_transaction, after_bind_ok hdraft, after_bind_ok hupsert]
  rfl

/-- Where the node is there, a record is stored, and then only records go. -/
theorem store_after {n : Node} (hw : w.Sound) (hn : n.id ∈ keys w.tables.nodes) :
    ∃ q w₁ w₂, Stored c.digest n.id tool prompt output json q ∧ Reach Event.None w w₁ ∧
      Happens (.record q) w₁ w₂ ∧
      Reach (fun e => ¬ e.Records) w₂ ((c.store n tool prompt output json).after w) := by
  obtain ⟨q, w₁, w₂, hstored, -, hreach, hrecord, -, hafter⟩ :=
    store_after_prune c tool prompt output json hn
  have hw₂ := hrecord.sound (hreach.sound hw)
  refine ⟨q, w₁, w₂, hstored, hreach, hrecord, ?_⟩
  have hrest : Safe Regime.unrecorded (c.prune n tool q.id >>= fun _ => pure q) :=
    (safe_prune (fun _ => id) c n tool _).bind fun _ => .pure _
  have hpruned := (hrest.runs _ trivial).after hw₂
  rw [hafter]
  exact hpruned.trans (reach_endTransaction (hpruned.sound hw₂))

/-- A record that was stored is there. -/
theorem store_eq_ok {n : Node} {q : GenerationRecord} (hw : w.Sound)
    (h : (c.store n tool prompt output json).run w = .ok q w') :
    Stored c.digest n.id tool prompt output json q ∧ Assoc.get? q.id w'.tables.records = some q := by
  have hruns : Runs Event.Any w (c.store n tool prompt output json) fun q w' =>
      Stored c.digest n.id tool prompt output json q ∧ Assoc.get? q.id w'.tables.records = some q := by
    refine Runs.transaction (fun hr h => hr.tables_of_quiet ▸ h) fun w₁ _ _ _ => ?_
    rw [← bind_assoc]
    refine (Graph.runs_upsertDraft (Graph.takes_draftRecord ..) trivial).bind fun q w₂ _ _ hq => ?_
    obtain ⟨rfl, htables⟩ := hq
    have hstored := stored_kept c n.id tool prompt output json w₁.tables w₁.supply
    refine ((runs_prune_keeps c n tool ?_).mono fun _ _ => trivial).bind fun _ _ _ _ h => .pure ⟨hstored, h⟩
    rw [htables]
    exact Assoc.get?_set_same ..
  exact (hruns.ok hw h).2

/-! ## Sessions -/

/-- The records keep what is remembered. -/
structure Recalls (digest : String → String)
    (last : String → String → String → Option (String × Option Members)) (w : Workspace) : Prop where
  /-- A record has the digest of its prompt. -/
  hash : ∀ {i r}, Assoc.get? i w.tables.records = some r → r.promptHash = digest r.prompt
  /-- A record keeps what is remembered of its node, its tool and its prompt. -/
  last : ∀ {i r}, Assoc.get? i w.tables.records = some r →
    last r.nodeId r.toolId r.prompt = some (r.content, r.json)

/-- The record that is stored takes the place of the one with its key. -/
theorem record_of_happens {q : GenerationRecord} (h : Happens (.record q) w w') :
    Assoc.get? q.id w'.tables.records = some q ∧
      ∀ {i r}, Assoc.get? i w'.tables.records = some r →
        r = q ∨ Assoc.get? i w.tables.records = some r := by
  cases h with
  | @record _ s h hs =>
      refine ⟨Assoc.get?_set_same .., fun {i r} hr => ?_⟩
      change Assoc.get? i (Assoc.set _ _ w.tables.records) = some r at hr
      rw [Assoc.get?_set] at hr
      split at hr
      · exact .inl (Option.some.inj hr).symm
      · exact .inr hr

/-- What is remembered after an output was stored, whether this failed or not. -/
theorem Recalls.store {c : Cache} {n : Node} {tool prompt output : String} {json : Option Members}
    {last : String → String → String → Option (String × Option Members)}
    (h : Recalls c.digest last w) (hw : w.Sound) :
    Recalls c.digest (fun id t p =>
      (if n.id = id ∧ tool = t ∧ prompt = p then some (output, json) else none).or (last id t p))
      ((c.store n tool prompt output json).after w) := by
  by_cases hn : n.id ∈ keys w.tables.nodes
  · obtain ⟨q, w₁, w₂, hq, hquiet, hrecord, hdrops⟩ := store_after c tool prompt output json hw hn
    have hw₂ := hrecord.sound (hquiet.sound hw)
    obtain ⟨hstored, hrows⟩ := record_of_happens hrecord
    have hold {i : String} {r : GenerationRecord}
        (hr : Assoc.get? i ((c.store n tool prompt output json).after w).tables.records = some r) :
        r = q ∨ Assoc.get? i w.tables.records = some r := by
      rw [← hquiet.tables_of_quiet]
      exact hrows (record_of_reach hw₂ hdrops hr)
    have hash {i : String} {r : GenerationRecord}
        (hr : Assoc.get? i ((c.store n tool prompt output json).after w).tables.records = some r) :
        r.promptHash = c.digest r.prompt := by
      rcases hold hr with rfl | hr
      · rw [hq.hash, hq.prompt]
      · exact h.hash hr
    refine ⟨hash, fun {i r} hr => ?_⟩
    split
    · -- The record has the key of the one that was stored, so it is that one.
      rename_i hsame
      obtain ⟨hid, htool, hprompt⟩ := hsame
      have hkey : r.key = q.key := by
        rw [GenerationRecord.key, GenerationRecord.key, hash hr, hq.node, hq.tool, hq.hash, ← hid,
          ← htool, ← hprompt]
      have hr₂ := record_of_reach hw₂ hdrops hr
      obtain rfl := hw₂.wellFormed.records.unique hr₂ hstored hkey
      rw [hr₂, Option.some.injEq] at hstored
      rw [hstored, hq.content, hq.json]
      rfl
    · rename_i hother
      rcases hold hr with rfl | hr
      · exact absurd ⟨hq.node.symm, hq.tool.symm, hq.prompt.symm⟩ hother
      · exact h.last hr
  · -- No record is that of a node that is gone.
    have htables := store_after_of_absent c tool prompt output json hw hn
    refine ⟨fun hr => h.hash (htables ▸ hr), fun {i r} hr => ?_⟩
    rw [htables] at hr
    rw [if_neg]
    · exact h.last hr
    · rintro ⟨hid, -⟩
      exact hn (hid ▸ hw.wellFormed.owners hr)

end Cache

namespace Request

/-- What the request stores for a node, a tool and a prompt. -/
def stored? (id tool prompt : String) : Request → Option (String × Option Members)
  | store _ n t p output json =>
      if n.id = id ∧ t = tool ∧ p = prompt then some (output, json) else none
  | _ => none

/-- What was stored last for a node, a tool and a prompt. -/
def lastStored (rs : List Request) (id tool prompt : String) : Option (String × Option Members) :=
  rs.reverse.findSome? (stored? id tool prompt)

/-- Records are stored by caches with this digest only. -/
def Digests (digest : String → String) : Request → Prop
  | store c .. => c.digest = digest
  | build .. => False
  | _ => True

end Request

namespace Cache

open Request

variable {digest : String → String}

/-- What is remembered after a request. -/
theorem Recalls.request {last : String → String → String → Option (String × Option Members)}
    (h : Recalls digest last w) (hw : w.Sound) {r : Request} (hr : r.Digests digest) :
    Recalls digest (fun id tool prompt => (r.stored? id tool prompt).or (last id tool prompt))
      (r.op.after w) := by
  have keep (hn : ¬ r.Records) : Recalls digest last (r.op.after w) := by
    have hsafe : Safe Regime.unrecorded r.op := r.safe_op (fun _ => id) fun h => absurd h hn
    have hreach := (hsafe.runs w trivial).after hw
    exact ⟨fun hq => h.hash (record_of_reach hw hreach hq),
      fun hq => h.last (record_of_reach hw hreach hq)⟩
  cases r with
  | store c n tool prompt output json =>
      obtain rfl : c.digest = digest := hr
      exact (after_discard (c.store n tool prompt output json) w).symm ▸ h.store hw
  | build => exact hr.elim
  | _ => exact keep id

theorem recalls_session {rs : List Request} (hrs : ∀ r ∈ rs, r.Digests digest) (w : Workspace) :
    Recalls digest (lastStored rs) (w.emptied.session (rs.map .asked)) := by
  induction rs using List.reverseRecOn with
  | nil => exact ⟨(fun h => nomatch h), (fun h => nomatch h)⟩
  | append_singleton rs r ih =>
      have hlast (id tool prompt : String) : lastStored (rs ++ [r]) id tool prompt =
          (r.stored? id tool prompt).or (lastStored rs id tool prompt) := by
        rw [lastStored, List.reverse_append, List.reverse_singleton, List.singleton_append,
          List.findSome?_cons]
        cases r.stored? id tool prompt <;> rfl
      rw [List.map_append, List.map_singleton, Workspace.session_append_asked,
        funext fun id => funext fun tool => funext fun prompt => hlast id tool prompt]
      refine Recalls.request (ih fun q hq => hrs q (List.mem_append_left _ hq)) ?_ (hrs r (by simp))
      exact Workspace.sound_session _ w.sound_emptied

/-- A lookup does not fail, and gives a record of exactly the node, the tool and the prompt. -/
theorem lookup_run (hw : w.Sound) (c : Cache) (n : Node) (tool prompt : String) :
    ∃ o w', (c.lookup n tool prompt).run w = .ok o w' ∧ ∀ r, o = some r →
      Assoc.get? r.id w.tables.records = some r ∧ r.nodeId = n.id ∧ r.toolId = tool ∧
        r.prompt = prompt := by
  obtain ⟨o, ho, hrow⟩ := Graph.findRecord?_run hw (c.keyOf n tool prompt)
  cases o with
  | none => exact ⟨none, w, bind_ok ho, fun _ h => nomatch h⟩
  | some r =>
      obtain ⟨hr, hkey⟩ := (hrow r).mp rfl
      by_cases hprompt : r.prompt = prompt
      · refine ⟨some r, w, (bind_ok ho).trans ?_, fun q hq => ?_⟩
        · simp only [hprompt, beq_self_eq_true, if_true]
          rfl
        · cases hq
          exact ⟨hr, congrArg RecordKey.node hkey, congrArg RecordKey.tool hkey, hprompt⟩
      · refine ⟨none, { w with notices := .otherPrompt n.name tool :: w.notices },
          (bind_ok ho).trans ?_, fun _ h => nomatch h⟩
        simp only [beq_eq_false_iff_ne.mpr hprompt]
        rfl

/-- After a session a lookup does not fail, and gives nothing or what was stored last for exactly this
node, this tool and this prompt. -/
theorem lookup_after_session {rs : List Request} (hrs : ∀ r ∈ rs, r.Digests digest)
    (w : Workspace) (c : Cache) (n : Node) (tool prompt : String) :
    ∃ o w', (c.lookup n tool prompt).run (w.emptied.session (rs.map .asked)) = .ok o w' ∧
      ∀ r, o = some r → lastStored rs n.id tool prompt = some (r.content, r.json) := by
  obtain ⟨o, w', ho, hrow⟩ :=
    lookup_run (Workspace.sound_session _ w.sound_emptied) c n tool prompt
  refine ⟨o, w', ho, fun r hr => ?_⟩
  obtain ⟨hr, hnode, rfl, rfl⟩ := hrow r hr
  rw [← hnode]
  exact (recalls_session hrs w).last hr

end Cache

end IntentBuild
