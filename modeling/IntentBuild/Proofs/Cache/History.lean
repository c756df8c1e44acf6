import IntentBuild.Proofs.Cache.Lookups
import IntentBuild.Proofs.Graph.Cascade

/-!
# The history of a node

The history of a node for a tool is told by its prompts, from the oldest to the newest, and the rule is
`Request.revise`.  A prompt that is stored moves to the end, and then the list is cut at the front down
to the limit.  A prompt that is deleted goes, and where a node is invalidated its lists are empty.

This asks for a digest that tells the prompts apart, and for records each created at a time of its own
(`Cache.Dated`).  New records keep to that, as the supply gives no time twice.  What a request does to
the table of records is then one of two things: a record is put where another one with its prompt may
have been (`Cache.Puts`), or the records of some identifiers are gone (`Cache.Drops`).  Both say what
becomes of the list of any node for any tool.
-/

namespace IntentBuild

open Op
open Assoc (keys)

namespace Cache

variable {w w' : Workspace} {digest : String → String} {S : Set String} {id tool prompt : String}
  {l : List GenerationRecord} {q : GenerationRecord} {ids : List String}

/-! ## Records in the order of their times -/

/-- The records are of prompts that the digest tells apart, and each was created at a time of its own
in the past. -/
structure Dated (digest : String → String) (S : Set String) (w : Workspace) : Prop where
  /-- The digest tells the prompts apart. -/
  prompt : ∀ {i r}, Assoc.get? i w.tables.records = some r → r.prompt ∈ S
  /-- A record has the digest of its prompt. -/
  hash : ∀ {i r}, Assoc.get? i w.tables.records = some r → r.promptHash = digest r.prompt
  /-- All times are universal. -/
  universal : w.tables.Universal
  /-- No record is of the future. -/
  past : ∀ {i r}, Assoc.get? i w.tables.records = some r → r.created.micros < w.supply.nextTime
  /-- No two records are of one time. -/
  apart : ∀ {i j r q}, Assoc.get? i w.tables.records = some r →
    Assoc.get? j w.tables.records = some q → r.created.micros = q.created.micros → r = q

/-- The list has exactly the records of a node for a tool, from the oldest to the newest. -/
structure Listed (w : Workspace) (id tool : String) (l : List GenerationRecord) : Prop where
  /-- Each record is older than those after it. -/
  ordered : l.Pairwise fun a b => a.created.micros < b.created.micros
  /-- The records are those of the node for the tool. -/
  mem : ∀ {r}, r ∈ l ↔ Assoc.get? r.id w.tables.records = some r ∧ r.nodeId = id ∧ r.toolId = tool

theorem mem_recordsOf (hw : w.Sound) {r : GenerationRecord} : r ∈ w.tables.recordsOf id (some tool) ↔
    Assoc.get? r.id w.tables.records = some r ∧ r.nodeId = id ∧ r.toolId = tool := by
  rw [Tables.recordsOf, List.mem_filter, Tables.mem_allRecords hw.wellFormed]
  simp [eq_comm (a := tool)]

namespace Listed

/-- There is one such list only. -/
theorem eq {l' : List GenerationRecord} (h : Listed w id tool l) (h' : Listed w id tool l') :
    l = l' := by
  have hnodup {l : List GenerationRecord} (h : Listed w id tool l) : l.Nodup :=
    h.ordered.imp fun hlt heq => by rw [heq] at hlt; exact absurd hlt (Int.lt_irrefl _)
  have hperm : l.Perm l' :=
    (List.perm_ext_iff_of_nodup (hnodup h) (hnodup h')).mpr fun r => h.mem.trans h'.mem.symm
  refine hperm.eq_of_pairwise (fun a b _ _ hab hba => ?_) h.ordered h'.ordered
  exact absurd (Int.lt_trans hab hba) (Int.lt_irrefl _)

/-- No identifier stands in the list twice. -/
theorem nodup (h : Listed w id tool l) : (l.map GenerationRecord.id).Nodup := by
  refine List.pairwise_map.mpr (h.ordered.imp_of_mem fun {a b} ha hb hlt heq => ?_)
  have hsame : some a = some b := (h.mem.mp ha).1.symm.trans (heq ▸ (h.mem.mp hb).1)
  rw [Option.some.inj hsame] at hlt
  exact absurd hlt (Int.lt_irrefl _)

/-- The records of dated tables have such a list, which is the history. -/
theorem of_dated (hw : w.Sound) (hd : Dated digest S w) (n : Node) (tool : String) :
    ∃ l, Listed w n.id tool l ∧ (history n (some tool)).run w = .ok l w := by
  refine ⟨_, ⟨?_, fun {r} => ?_⟩, Graph.records_run n (some tool) hw hd.universal⟩
  · have hle : (Sorting.sort (fun a b : GenerationRecord => a.created.le b.created)
        (w.tables.recordsOf n.id (some tool))).Pairwise fun a b => a.created.le b.created = true := by
      refine Sorting.pairwise_sort (fun a b c hab hbc => ?_) (fun a b => ?_) _
      all_goals simp only [Stamp.le, decide_eq_true_eq] at *
      · exact Int.le_trans hab hbc
      · exact Int.le_total _ _
    have hnodup : ((Sorting.sort (fun a b : GenerationRecord => a.created.le b.created)
        (w.tables.recordsOf n.id (some tool))).map GenerationRecord.id).Nodup :=
      ((Sorting.sort_perm _).map _).nodup_iff.mpr
        ((Tables.nodup_allRecords hw.wellFormed).sublist (List.filter_sublist.map _))
    refine (hle.and (List.pairwise_map.mp hnodup)).imp_of_mem fun {a b} ha hb hab => ?_
    have hrow {r : GenerationRecord} (hr : r ∈ Sorting.sort (fun a b => a.created.le b.created)
        (w.tables.recordsOf n.id (some tool))) : Assoc.get? r.id w.tables.records = some r :=
      ((mem_recordsOf hw).mp (Sorting.mem_sort.mp hr)).1
    refine lt_of_le_of_ne (of_decide_eq_true hab.1) fun heq => hab.2 ?_
    rw [hd.apart (hrow ha) (hrow hb) heq]
  · rw [Sorting.mem_sort]
    exact mem_recordsOf hw

/-- The list is the history. -/
theorem history_run {n : Node} (h : Listed w n.id tool l) (hw : w.Sound) (hd : Dated digest S w) :
    (history n (some tool)).run w = .ok l w := by
  obtain ⟨l', hl', hrun⟩ := of_dated hw hd n tool
  rw [hrun, hl'.eq h]

/-- A node that is gone has no records. -/
theorem eq_nil (h : Listed w id tool l) (hw : w.Sound) (hn : id ∉ keys w.tables.nodes) : l = [] :=
  List.eq_nil_iff_forall_not_mem.mpr fun _ hr =>
    hn ((h.mem.mp hr).2.1 ▸ hw.wellFormed.owners (h.mem.mp hr).1)

end Listed

/-! ## Records that go -/

/-- Exactly the records of some identifiers are gone. -/
structure Drops (ids : List String) (w w' : Workspace) : Prop where
  /-- The tables without these records. -/
  tables : w'.tables = w.tables.without [] [] ids
  /-- No time was given back. -/
  supply : w.supply.Le w'.supply

namespace Drops

theorem nodes (h : Drops ids w w') : w'.tables.nodes = w.tables.nodes := by
  rw [h.tables]
  exact sparing_nil ..

theorem record (h : Drops ids w w') {i : String} {r : GenerationRecord} :
    Assoc.get? i w'.tables.records = some r ↔ Assoc.get? i w.tables.records = some r ∧ i ∉ ids := by
  rw [h.tables, Tables.without, Tables.get?_sparing]
  by_cases hi : i ∈ ids <;> simp [hi]

/-- What is quiet before and after does not count. -/
theorem of_quiet {w₁ w₂ : Workspace} (h : Drops ids w₁ w₂) (h₁ : Reach Event.None w w₁)
    (h₂ : Reach Event.None w₂ w') : Drops ids w w' where
  tables := by rw [h₂.tables_of_quiet, h.tables, h₁.tables_of_quiet]
  supply := Supply.le_trans h₁.supply_le (Supply.le_trans h.supply h₂.supply_le)

theorem dated (h : Drops ids w w') (hd : Dated digest S w) : Dated digest S w' where
  prompt hr := hd.prompt (h.record.mp hr).1
  hash hr := hd.hash (h.record.mp hr).1
  universal hr := hd.universal (h.record.mp hr).1
  past hr := Int.lt_of_lt_of_le (hd.past (h.record.mp hr).1) h.supply.times
  apart hr hq := hd.apart (h.record.mp hr).1 (h.record.mp hq).1

theorem listed (h : Drops ids w w') (hl : Listed w id tool l) :
    Listed w' id tool (l.filter fun r => r.id ∉ ids) where
  ordered := hl.ordered.filter _
  mem := by
    intro r
    rw [List.mem_filter, hl.mem, h.record]
    simp only [decide_eq_true_eq]
    tauto

/-- The list stays where none of its records goes. -/
theorem listed_other (h : Drops ids w w') (hl : Listed w id tool l) (hids : ∀ r ∈ l, r.id ∉ ids) :
    Listed w' id tool l := by
  have hfilter : (l.filter fun r => r.id ∉ ids) = l :=
    List.filter_eq_self.mpr fun r hr => decide_eq_true (hids r hr)
  exact hfilter ▸ h.listed hl

end Drops

/-! ## A record that comes -/

/-- The record keeps a prompt for a node and a tool. -/
def Tells (id tool prompt : String) (r : GenerationRecord) : Prop :=
  r.nodeId = id ∧ r.toolId = tool ∧ r.prompt = prompt

/-- In dated tables the key of a record is told by its prompt. -/
theorem Dated.key_eq_iff (hd : Dated digest S w) (hS : Set.InjOn digest S) (hp : prompt ∈ S)
    {i : String} {r : GenerationRecord} (hr : Assoc.get? i w.tables.records = some r) :
    r.key = ⟨id, tool, digest prompt⟩ ↔ Tells id tool prompt r := by
  rw [GenerationRecord.key, RecordKey.mk.injEq, hd.hash hr, hS.eq_iff (hd.prompt hr) hp, Tells]

/-- The record that is stored takes the place of the one with its key, and no other changes. -/
theorem get?_of_happens (h : Happens (.record q) w w') (hw : w.Sound) {i : String}
    {r : GenerationRecord} : Assoc.get? i w'.tables.records = some r ↔ (i = q.id ∧ r = q) ∨
      (Assoc.get? i w.tables.records = some r ∧ r.key ≠ q.key) := by
  obtain ⟨hstored, hrows⟩ := record_of_happens h
  have hrecords := (h.sound hw).wellFormed.records
  constructor
  · intro hr
    by_cases hi : i = q.id
    · exact .inl ⟨hi, Option.some.inj (hr.symm.trans (hi ▸ hstored))⟩
    · refine .inr ⟨(hrows hr).resolve_left fun h => hi ?_, fun hk => hi (hrecords.unique hr hstored hk)⟩
      rw [← hrecords.owned hr, h]
  · rintro (⟨rfl, rfl⟩ | ⟨hr, hk⟩)
    · exact hstored
    · cases h with
      | @record _ d s hn hs =>
          have hfresh : d.id ∉ keys w.tables.records := fun hm => hs.fresh (hw.spent (.inr (.inr hm)))
          refine (Assoc.get?_set ..).trans ((if_neg ?_).trans hr)
          rintro rfl
          exact hk (Tables.key_eq_kept hw.wellFormed hfresh hr)

/-- A record with the time of now was put where another one with its prompt may have been. -/
structure Puts (q : GenerationRecord) (w w' : Workspace) : Prop where
  /-- No node changed. -/
  nodes : w'.tables.nodes = w.tables.nodes
  /-- The record is there, and of those with its prompt it alone. -/
  record : ∀ {i r}, Assoc.get? i w'.tables.records = some r ↔ (i = q.id ∧ r = q) ∨
    (Assoc.get? i w.tables.records = some r ∧ ¬ Tells q.nodeId q.toolId q.prompt r)
  /-- The record was created now. -/
  created : q.created = .universal w.supply.nextTime
  /-- Now is over. -/
  supply : w.supply.nextTime < w'.supply.nextTime

namespace Puts

/-- A record that is stored is put. -/
theorem of_happens {w₁ : Workspace} (hw : w.Sound) (hd : Dated digest S w) (hS : Set.InjOn digest S)
    (hquiet : Reach Event.None w w₁) (h : Happens (.record q) w₁ w') (hq : q.prompt ∈ S)
    (hhash : q.promptHash = digest q.prompt) (hcreated : q.created = .universal w.supply.nextTime)
    (hsupply : w.supply.nextTime < w'.supply.nextTime) : Puts q w w' where
  nodes := by
    rw [← hquiet.tables_of_quiet]
    cases h
    rfl
  record := by
    intro i r
    have hkey : q.key = ⟨q.nodeId, q.toolId, digest q.prompt⟩ := by
      rw [GenerationRecord.key, hhash]
    rw [get?_of_happens h (hquiet.sound hw), hkey, hquiet.tables_of_quiet]
    exact or_congr_right (and_congr_right fun hr => not_congr (hd.key_eq_iff hS hq hr))
  created := hcreated
  supply := hsupply

theorem dated (h : Puts q w w') (hd : Dated digest S w) (hq : q.prompt ∈ S)
    (hhash : q.promptHash = digest q.prompt) : Dated digest S w' := by
  have hnow {i : String} {r : GenerationRecord} (hr : Assoc.get? i w.tables.records = some r) :
      r.created.micros < q.created.micros := by
    rw [h.created]
    exact hd.past hr
  constructor
  · intro i r hr
    rcases h.record.mp hr with ⟨-, rfl⟩ | ⟨hr, -⟩
    · exact hq
    · exact hd.prompt hr
  · intro i r hr
    rcases h.record.mp hr with ⟨-, rfl⟩ | ⟨hr, -⟩
    · exact hhash
    · exact hd.hash hr
  · intro i r hr
    rcases h.record.mp hr with ⟨-, rfl⟩ | ⟨hr, -⟩
    · rw [h.created]
      rfl
    · exact hd.universal hr
  · intro i r hr
    rcases h.record.mp hr with ⟨-, rfl⟩ | ⟨hr, -⟩
    · rw [h.created]
      exact h.supply
    · exact Int.lt_trans (hd.past hr) h.supply
  · intro i j r p hr hp heq
    rcases h.record.mp hr with ⟨-, rfl⟩ | ⟨hr, -⟩ <;> rcases h.record.mp hp with ⟨-, rfl⟩ | ⟨hp, -⟩
    · rfl
    · exact absurd heq (Int.ne_of_gt (hnow hp))
    · exact absurd heq (Int.ne_of_lt (hnow hr))
    · exact hd.apart hr hp heq

/-- In its own list the record stands at the end. -/
theorem listed (h : Puts q w w') (hd : Dated digest S w) (hl : Listed w q.nodeId q.toolId l) :
    Listed w' q.nodeId q.toolId ((l.filter fun r => r.prompt ≠ q.prompt) ++ [q]) where
  ordered := by
    refine List.pairwise_append.mpr ⟨hl.ordered.filter _, List.pairwise_singleton _ _, ?_⟩
    intro a ha b hb
    rw [List.mem_singleton.mp hb, h.created]
    exact hd.past (hl.mem.mp (List.mem_filter.mp ha).1).1
  mem := by
    intro r
    rw [List.mem_append, List.mem_filter, List.mem_singleton, hl.mem, h.record, decide_eq_true_eq]
    constructor
    · rintro (⟨⟨hr, hn, ht⟩, hp⟩ | rfl)
      · exact ⟨.inr ⟨hr, fun h => hp h.2.2⟩, hn, ht⟩
      · exact ⟨.inl ⟨rfl, rfl⟩, rfl, rfl⟩
    · rintro ⟨⟨-, rfl⟩ | ⟨hr, htells⟩, hn, ht⟩
      · exact .inr rfl
      · exact .inl ⟨⟨hr, hn, ht⟩, fun hp => htells ⟨hn, ht, hp⟩⟩

/-- Every other list stays. -/
theorem listed_other (h : Puts q w w') (hl : Listed w id tool l)
    (hother : ¬ (q.nodeId = id ∧ q.toolId = tool)) : Listed w' id tool l where
  ordered := hl.ordered
  mem := by
    intro r
    rw [hl.mem, h.record]
    constructor
    · rintro ⟨hr, hn, ht⟩
      exact ⟨.inr ⟨hr, fun h => hother ⟨h.1.symm.trans hn, h.2.1.symm.trans ht⟩⟩, hn, ht⟩
    · rintro ⟨⟨-, rfl⟩ | ⟨hr, -⟩, hn, ht⟩
      · exact absurd ⟨hn, ht⟩ hother
      · exact ⟨hr, hn, ht⟩

end Puts

/-! ## What the operations leave -/

theorem drops_nil (htables : w'.tables = w.tables) (hsupply : w.supply.Le w'.supply) :
    Drops [] w w' :=
  ⟨htables.trans (Tables.without_nil _).symm, hsupply⟩

/-- Within a transaction the records of a list are deleted one by one. -/
theorem ends_deleteRecords (hw : w.Sound) (hd : w.graph.depth ≠ 0)
    (hl : ∀ r ∈ l, r ∈ w.tables.allRecords) :
    Ends w (forIn l PUnit.unit fun r _ => Graph.deleteRecord r.id >>= fun _ => pure (.yield ⟨⟩))
      (fun _ => Drops (l.map GenerationRecord.id) w) fun _ => False :=
  ((Graph.ends_forIn hd fun r _ hd => Graph.ends_deleteRecord hd r.id).and_runs
    (Graph.runs_deleteRecords hw.wellFormed hl fun _ _ => trivial)).weaken
      (fun _ _ hk h => ⟨h.2, hk.reach.supply_le⟩) fun _ _ h => h

/-- A record is deleted, also where the graph cannot be written. -/
theorem ends_deleteRecord (hq : Assoc.get? q.id w.tables.records = some q) :
    Ends w (Graph.deleteRecord q.id) (fun _ => Drops [q.id] w) fun w' => Drops [q.id] w w' := by
  intro hw
  have htables := Tables.dropRecord_eq_without hw.wellFormed hq
  refine Ends.reads (a := w.tables) rfl ?_ hw
  rw [Tables.deleteRecord_of_get? hw.wellFormed hq]
  have hcommit : Ends w (commit (w.tables.dropRecord q)) (fun _ => Drops [q.id] w)
      fun w' => Drops [q.id] w w' := fun hw =>
    (commit_ended ⟨.single (.inr trivial) (.dropRecord hq), rfl⟩ hw).weaken
      (fun _ _ hk h => ⟨h.trans htables, hk.reach.supply_le⟩)
      fun _ hk h => ⟨h.2.trans htables, hk.reach.supply_le⟩
  exact .bind (.bind hcommit fun _ _ _ _ h => .pure h) fun _ _ _ _ h => .pure h

/-- The oldest records beyond the limit go, but for the one that is kept. -/
theorem ends_prune {c : Cache} {n : Node} (keep : String) (hw : w.Sound) (hd : w.graph.depth ≠ 0)
    (hl : (history n (some tool)).run w = .ok l w) :
    Ends w (c.prune n tool keep) (fun _ => Drops ((((l.filter fun r => r.id != keep).take
      ((l.filter fun r => r.id != keep).length + 1 - c.limit)).map GenerationRecord.id)) w)
      fun _ => False := by
  refine .reads hl <| (ends_deleteRecords hw hd fun r hr => ?_).bind fun _ _ _ _ h => .pure h
  exact (Graph.mem_records hl (List.mem_filter.mp (List.mem_of_mem_take hr)).1).1

/-- The last items of a list, at most as many as a limit. -/
def latest {α : Type} (limit : Nat) (l : List α) : List α := l.drop (l.length - limit)

/-- A list without its first items, where no item has the name of another. -/
theorem filter_not_mem_take {α : Type} {f : α → String} {l : List α} (h : (l.map f).Nodup) (k : Nat) :
    (l.filter fun a => f a ∉ (l.take k).map f) = l.drop k := by
  have hsplit : (l.take k ++ l.drop k).filter (fun a => f a ∉ (l.take k).map f) = l.drop k := by
    rw [List.filter_append, List.filter_eq_nil_iff.mpr, List.nil_append, List.filter_eq_self.mpr]
    · intro a ha
      refine decide_eq_true fun hmem => ?_
      rw [← List.take_append_drop k l, List.map_append] at h
      exact (List.nodup_append.mp h).2.2 _ hmem _ (List.mem_map_of_mem ha) rfl
    · intro a ha hnot
      exact of_decide_eq_true hnot (List.mem_map_of_mem ha)
  rwa [List.take_append_drop] at hsplit

section

variable {c : Cache} (n : Node) (output : String) (json : Option Members) (hw : w.Sound)
  (hd : Dated c.digest S w) (hS : Set.InjOn c.digest S)
include hw hd hS

/-- A record is put, and then exactly those before the latest ones of its list go. -/
theorem store_drops (hp : prompt ∈ S) (hlimit : 1 ≤ c.limit) (hn : n.id ∈ keys w.tables.nodes)
    (hl : Listed w n.id tool l) :
    ∃ q w₁, Stored c.digest n.id tool prompt output json q ∧ Puts q w w₁ ∧
      let all := (l.filter fun r => r.prompt ≠ prompt) ++ [q]
      Listed w₁ n.id tool all ∧
      Drops ((all.take (all.length - c.limit)).map GenerationRecord.id) w₁
        ((c.store n tool prompt output json).after w) := by
  obtain ⟨q, w₀, w₁, hq, ⟨hcreated, hnow⟩, hquiet, hrecord, hdepth, hafter⟩ :=
    store_after_prune c tool prompt output json hn
  have hhash : q.promptHash = c.digest q.prompt := by rw [hq.hash, hq.prompt]
  have hqS : q.prompt ∈ S := hq.prompt.symm ▸ hp
  have hputs : Puts q w w₁ := .of_happens hw hd hS hquiet hrecord hqS hhash hcreated hnow
  have hw₁ : w₁.Sound := hrecord.sound (hquiet.sound hw)
  have hlisted : Listed w₁ n.id tool ((l.filter fun r => r.prompt ≠ prompt) ++ [q]) := by
    have h := hputs.listed (l := l) hd (by rw [hq.node, hq.tool]; exact hl)
    rwa [hq.node, hq.tool, hq.prompt] at h
  refine ⟨q, w₁, hq, hputs, hlisted, ?_⟩
  generalize (l.filter fun r => r.prompt ≠ prompt) = kept at hlisted ⊢
  have hothers : ((kept ++ [q]).filter fun r => r.id != q.id) = kept := by
    have hnodup := hlisted.nodup
    rw [List.map_append, List.nodup_append] at hnodup
    rw [List.filter_append, List.filter_eq_self.mpr, List.filter_eq_nil_iff.mpr, List.append_nil]
    · intro r hr
      rw [List.mem_singleton.mp hr]
      simp
    · intro r hr
      exact bne_iff_ne.mpr (hnodup.2.2 _ (List.mem_map_of_mem hr) _ (by simp))
  have htake : kept.take (kept.length + 1 - c.limit) =
      (kept ++ [q]).take ((kept ++ [q]).length - c.limit) := by
    rw [List.length_append, List.length_singleton, List.take_append_of_le_length (by omega)]
  have hprune := ends_prune (c := c) q.id hw₁ hdepth
    (hlisted.history_run hw₁ (hputs.dated hd hqS hhash))
  rw [hothers, htake] at hprune
  obtain ⟨hkeeps, hdrops⟩ := Ends.after (hprune.weaken (fun _ _ _ h => h) fun _ _ h => h.elim) hw₁
  rw [hafter, after_bind_pure]
  exact hdrops.of_quiet (.refl _) (reach_endTransaction (hkeeps.reach.sound hw₁))

/-- The record of a prompt goes, if there is one. -/
theorem delete_drops (tool : String) (hp : prompt ∈ S) : ∃ ids, Drops ids w ((c.delete n tool prompt).after w) ∧
    ∀ {i r}, Assoc.get? i w.tables.records = some r → (i ∈ ids ↔ Tells n.id tool prompt r) := by
  obtain ⟨o, ho, hfound⟩ := Graph.findRecord?_run hw (c.keyOf n tool prompt)
  have hrow {i : String} {r : GenerationRecord} (hr : Assoc.get? i w.tables.records = some r) :
      o = some r ↔ Tells n.id tool prompt r := by
    obtain rfl := hw.wellFormed.records.owned hr
    rw [hfound, ← hd.key_eq_iff hS hp hr]
    exact and_iff_right hr
  unfold delete
  rw [after_bind_ok ho]
  cases o with
  | none =>
      refine ⟨[], drops_nil rfl (Supply.le_refl _), fun {i r} hr => ?_⟩
      rw [← hrow hr]
      exact ⟨fun h => (nomatch h), fun h => nomatch h⟩
  | some q =>
      have hq := ((hfound q).mp rfl).1
      refine ⟨[q.id], ?_, fun {i r} hr => ?_⟩
      · dsimp only
        rw [after_bind_pure]
        exact ((ends_deleteRecord hq).after hw).2
      · rw [← hrow hr, List.mem_singleton, Option.some.injEq]
        constructor
        · rintro rfl
          exact Option.some.inj (hq.symm.trans hr)
        · rintro rfl
          exact (hw.wellFormed.records.owned hr).symm

omit hS in
/-- All records of the node go. -/
theorem invalidate_drops : ∃ ids, Drops ids w ((invalidate n).after w) ∧
    ∀ {i r}, Assoc.get? i w.tables.records = some r → (i ∈ ids ↔ r.nodeId = n.id) := by
  have hall : (history n none).run w = _ := Graph.records_run n none hw hd.universal
  generalize hrs : Sorting.sort _ _ = rs at hall
  have hmem {r : GenerationRecord} : r ∈ rs ↔ r ∈ w.tables.allRecords ∧ r.nodeId = n.id := by
    rw [← hrs, Sorting.mem_sort, Tables.recordsOf, List.mem_filter]
    simp
  refine ⟨rs.map GenerationRecord.id, ?_, fun {i r} hr => ?_⟩
  · have hquiet : Reach Event.None w (w.atDepth (w.graph.depth + 1)) :=
      .quiet (e := .depth) trivial (.depth w _)
    have hw₁ := hquiet.sound hw
    have hloop := ends_deleteRecords (l := rs) hw₁ (Nat.succ_ne_zero _) fun r hr => (hmem.mp hr).1
    obtain ⟨hkeeps, hdrops⟩ := Ends.after (hloop.weaken (fun _ _ _ h => h) fun _ _ h => h.elim) hw₁
    have hrun : (invalidate n).after w = endTransaction.after
        ((forIn rs PUnit.unit fun r _ =>
          Graph.deleteRecord r.id >>= fun _ => pure (.yield ⟨⟩) : Op PUnit).after
            (w.atDepth (w.graph.depth + 1))) := by
      unfold invalidate
      rw [after_bind_ok hall, after_bind_pure, after_transaction, after_bind_pure]
    rw [hrun]
    exact hdrops.of_quiet hquiet (reach_endTransaction (hkeeps.reach.sound hw₁))
  · obtain rfl := hw.wellFormed.records.owned hr
    rw [List.mem_map]
    constructor
    · rintro ⟨q, hq, hid⟩
      have hrow := (Tables.mem_allRecords hw.wellFormed).mp (hmem.mp hq).1
      rw [hid] at hrow
      rw [Option.some.inj (hr.symm.trans hrow)]
      exact (hmem.mp hq).2
    · exact fun hn => ⟨r, hmem.mpr ⟨(Tables.mem_allRecords hw.wellFormed).mpr hr, hn⟩, rfl⟩

end

end Cache

/-! ## The rule -/

namespace Request

/-- The request is one to a cache, about prompts of a set. -/
def Caches (c : Cache) (S : Set String) : Request → Prop
  | store c' _ _ prompt _ _ => c' = c ∧ prompt ∈ S
  | delete c' _ _ prompt => c' = c ∧ prompt ∈ S
  | invalidate _ => True
  | _ => False

/-- The request is about a node and a tool. -/
def Concerns (id tool : String) : Request → Prop
  | store _ n t _ _ _ => n.id = id ∧ t = tool
  | delete _ n t _ => n.id = id ∧ t = tool
  | invalidate n => n.id = id
  | _ => False

/-- What a request makes of the prompts of a node for a tool.  A prompt that is stored moves to the
end, and the list is cut at the front down to the limit. -/
def revise (limit : Nat) (id tool : String) (prompts : List String) : Request → List String
  | store _ n t prompt _ _ =>
      if n.id = id ∧ t = tool then Cache.latest limit (prompts.filter (· ≠ prompt) ++ [prompt])
      else prompts
  | delete _ n t prompt => if n.id = id ∧ t = tool then prompts.filter (· ≠ prompt) else prompts
  | invalidate n => if n.id = id then [] else prompts
  | _ => prompts

theorem revise_of_not_concerns {limit : Nat} {id tool : String} {r : Request}
    (h : ¬ r.Concerns id tool) (prompts : List String) : r.revise limit id tool prompts = prompts := by
  cases r with
  | store | delete | invalidate => exact if_neg h
  | _ => rfl

/-- No list grows beyond the limit. -/
theorem length_revise_le {limit : Nat} {id tool : String} {prompts : List String} (r : Request)
    (h : prompts.length ≤ limit) : (r.revise limit id tool prompts).length ≤ limit := by
  cases r with
  | store c n t prompt output json =>
      rw [revise]
      split
      · rw [Cache.latest, List.length_drop]
        omega
      · exact h
  | delete c n t prompt =>
      rw [revise]
      split
      · exact Nat.le_trans (List.length_filter_le ..) h
      · exact h
  | invalidate n =>
      rw [revise]
      split
      · exact Nat.zero_le _
      · exact h
  | _ => exact h

end Request

namespace Cache

open Request

variable {c : Cache} {S : Set String} {w w' : Workspace} {id tool : String}
  {l : List GenerationRecord} {ids : List String}

theorem map_latest {α β : Type} (f : α → β) (limit : Nat) (l : List α) :
    (latest limit l).map f = latest limit (l.map f) := by
  rw [latest, latest, List.map_drop, List.length_map]

theorem map_filter_prompt (prompt : String) (l : List GenerationRecord) :
    (l.filter fun r => r.prompt ≠ prompt).map GenerationRecord.prompt =
      (l.map GenerationRecord.prompt).filter (· ≠ prompt) := by
  rw [List.filter_map]
  rfl

/-- Between the workspaces the lists changed by the rule for a request. -/
structure Revises (c : Cache) (S : Set String) (r : Request) (w w' : Workspace) : Prop where
  /-- No node changed. -/
  nodes : w'.tables.nodes = w.tables.nodes
  /-- The records are dated. -/
  dated : Dated c.digest S w'
  /-- The list of a node that is there has the prompts that the rule says, and a list that the request
  is not about stays as it was. -/
  listed : ∀ {id tool l}, id ∈ keys w.tables.nodes → Listed w id tool l → ∃ l', Listed w' id tool l' ∧
    l'.map GenerationRecord.prompt = r.revise c.limit id tool (l.map GenerationRecord.prompt) ∧
    (¬ r.Concerns id tool → l' = l)

/-- A list stays. -/
theorem listed_unconcerned {r : Request} (h : ¬ r.Concerns id tool) (hl : Listed w' id tool l) :
    ∃ l', Listed w' id tool l' ∧
      l'.map GenerationRecord.prompt = r.revise c.limit id tool (l.map GenerationRecord.prompt) ∧
      (¬ r.Concerns id tool → l' = l) :=
  ⟨l, hl, (revise_of_not_concerns h _).symm, fun _ => rfl⟩

section

variable (hlimit : 1 ≤ c.limit) (hS : Set.InjOn c.digest S) (hw : w.Sound)
  (hd : Dated c.digest S w)
include hS hw hd

include hlimit in
/-- The list after a prompt was stored ends with its record. -/
theorem listed_store {n : Node} {prompt : String} (output : String) (json : Option Members)
    (hp : prompt ∈ S) (hn : n.id ∈ keys w.tables.nodes) (hl : Listed w n.id tool l) :
    ∃ q, Stored c.digest n.id tool prompt output json q ∧
      Listed ((c.store n tool prompt output json).after w) n.id tool
        (latest c.limit ((l.filter fun r => r.prompt ≠ prompt) ++ [q])) := by
  obtain ⟨q, w₁, hq, -, hall, hdrops⟩ :=
    store_drops n output json hw hd hS hp hlimit hn hl
  have hlisted := hdrops.listed hall
  rw [filter_not_mem_take hall.nodup] at hlisted
  exact ⟨q, hq, hlisted⟩

include hlimit in
theorem revises_store {n : Node} {tool prompt output : String} {json : Option Members}
    (hp : prompt ∈ S) : Revises c S (.store c n tool prompt output json) w
      ((c.store n tool prompt output json).after w) := by
  by_cases hn : n.id ∈ keys w.tables.nodes
  · obtain ⟨l₀, hl₀, -⟩ := Listed.of_dated hw hd n tool
    obtain ⟨q, w₁, hq, hputs, hall, hdrops⟩ :=
      store_drops n output json hw hd hS hp hlimit hn hl₀
    have hdated := hputs.dated hd (hq.prompt.symm ▸ hp) (by rw [hq.hash, hq.prompt])
    refine ⟨hdrops.nodes.trans hputs.nodes, hdrops.dated hdated, fun {id t l} _ hl => ?_⟩
    by_cases hsame : n.id = id ∧ tool = t
    · obtain ⟨rfl, rfl⟩ := hsame
      obtain ⟨q, hq, hlisted⟩ := listed_store hlimit hS hw hd output json hp hn hl
      refine ⟨_, hlisted, ?_, fun h => absurd ⟨rfl, rfl⟩ h⟩
      rw [map_latest, List.map_append, map_filter_prompt, List.map_singleton, hq.prompt, revise,
        if_pos ⟨rfl, rfl⟩]
    · have hlisted := hputs.listed_other hl (by rwa [hq.node, hq.tool])
      refine listed_unconcerned hsame (hdrops.listed_other hlisted fun r hr hmem => hsame ?_)
      obtain ⟨d, hdmem, hid⟩ := List.mem_map.mp hmem
      obtain ⟨hrow, hnode, htool⟩ := hall.mem.mp (List.mem_of_mem_take hdmem)
      obtain ⟨hrow', hnode', htool'⟩ := hlisted.mem.mp hr
      rw [hid] at hrow
      obtain rfl := Option.some.inj (hrow.symm.trans hrow')
      exact ⟨hnode.symm.trans hnode', htool.symm.trans htool'⟩
  · have hsafe : Safe .any (c.store n tool prompt output json) :=
      safe_store (fun _ _ => trivial) fun _ => trivial
    have hdrops : Drops [] w ((c.store n tool prompt output json).after w) :=
      drops_nil (store_after_of_absent c tool prompt output json hw hn)
        ((hsafe.runs w trivial).after hw).supply_le
    refine ⟨hdrops.nodes, hdrops.dated hd, fun {id t l} hid hl => listed_unconcerned ?_
      (hdrops.listed_other hl fun _ _ h => nomatch h)⟩
    rintro ⟨rfl, -⟩
    exact hn hid

theorem revises_delete {n : Node} {tool prompt : String} (hp : prompt ∈ S) :
    Revises c S (.delete c n tool prompt) w ((c.delete n tool prompt).after w) := by
  obtain ⟨ids, hdrops, hids⟩ := delete_drops n hw hd hS tool hp
  refine ⟨hdrops.nodes, hdrops.dated hd, fun {id t l} _ hl => ?_⟩
  by_cases hsame : n.id = id ∧ tool = t
  · obtain ⟨rfl, rfl⟩ := hsame
    refine ⟨_, hdrops.listed hl, ?_, fun h => absurd ⟨rfl, rfl⟩ h⟩
    have hfilter : (l.filter fun r => r.id ∉ ids) = l.filter fun r => r.prompt ≠ prompt := by
      refine List.filter_congr fun r hr => ?_
      obtain ⟨hrow, hnode, htool⟩ := hl.mem.mp hr
      have htells : Tells n.id tool prompt r ↔ r.prompt = prompt := by simp [Tells, hnode, htool]
      exact decide_eq_decide.mpr (not_congr ((hids hrow).trans htells))
    rw [hfilter, map_filter_prompt, revise, if_pos ⟨rfl, rfl⟩]
  · refine listed_unconcerned hsame (hdrops.listed_other hl fun r hr hmem => hsame ?_)
    obtain ⟨hrow, hnode, htool⟩ := hl.mem.mp hr
    obtain ⟨hnode', htool', -⟩ := (hids hrow).mp hmem
    exact ⟨hnode'.symm.trans hnode, htool'.symm.trans htool⟩

omit hS in
theorem revises_invalidate {n : Node} :
    Revises c S (.invalidate n) w ((invalidate n).after w) := by
  obtain ⟨ids, hdrops, hids⟩ := invalidate_drops n hw hd
  refine ⟨hdrops.nodes, hdrops.dated hd, fun {id t l} _ hl => ?_⟩
  by_cases hsame : n.id = id
  · obtain rfl := hsame
    refine ⟨_, hdrops.listed hl, ?_, fun h => absurd rfl h⟩
    rw [revise, if_pos rfl, List.map_eq_nil_iff, List.filter_eq_nil_iff]
    intro r hr hnot
    obtain ⟨hrow, hnode, -⟩ := hl.mem.mp hr
    exact of_decide_eq_true hnot ((hids hrow).mpr hnode)
  · refine listed_unconcerned hsame (hdrops.listed_other hl fun r hr hmem => hsame ?_)
    obtain ⟨hrow, hnode, -⟩ := hl.mem.mp hr
    exact ((hids hrow).mp hmem).symm.trans hnode

include hlimit in
/-- What a request to the cache leaves. -/
theorem revises_request {r : Request} (hr : r.Caches c S) : Revises c S r w (r.op.after w) := by
  cases r with
  | store c' n tool prompt output json =>
      obtain ⟨rfl, hp⟩ := hr
      rw [op, after_discard]
      exact revises_store hlimit hS hw hd hp
  | delete c' n tool prompt =>
      obtain ⟨rfl, hp⟩ := hr
      rw [op, after_discard]
      exact revises_delete hS hw hd hp
  | invalidate n =>
      rw [op, after_discard]
      exact revises_invalidate hw hd
  | _ => exact hr.elim

end

/-- Between the workspaces the lists changed by the rule for a row of requests. -/
structure Retells (c : Cache) (S : Set String) (rs : List Request) (w w' : Workspace) : Prop where
  /-- No node changed. -/
  nodes : w'.tables.nodes = w.tables.nodes
  /-- The records are dated. -/
  dated : Dated c.digest S w'
  /-- The lists are those that the rule says, request after request. -/
  listed : ∀ {id tool l}, id ∈ keys w.tables.nodes → Listed w id tool l → ∃ l', Listed w' id tool l' ∧
    l'.map GenerationRecord.prompt =
      rs.foldl (revise c.limit id tool) (l.map GenerationRecord.prompt) ∧
    ((∀ r ∈ rs, ¬ r.Concerns id tool) → l' = l)

theorem retells_session (hlimit : 1 ≤ c.limit) (hS : Set.InjOn c.digest S) (hw : w.Sound)
    (hd : Dated c.digest S w) {rs : List Request} (hrs : ∀ r ∈ rs, r.Caches c S) :
    Retells c S rs w (w.session (rs.map .asked)) := by
  induction rs using List.reverseRecOn with
  | nil => exact ⟨rfl, hd, fun {id tool l} _ hl => ⟨l, hl, rfl, fun _ => rfl⟩⟩
  | append_singleton rs r ih =>
      obtain ⟨hnodes, hdated, hlisted⟩ := ih fun q hq => hrs q (List.mem_append_left _ hq)
      have hstep := revises_request hlimit hS (Workspace.sound_session _ hw) hdated (hrs r (by simp))
      rw [List.map_append, List.map_singleton, Workspace.session_append_asked]
      refine ⟨hstep.nodes.trans hnodes, hstep.dated, fun {id tool l} hid hl => ?_⟩
      obtain ⟨l₁, hl₁, hprompts₁, hsame₁⟩ := hlisted hid hl
      obtain ⟨l₂, hl₂, hprompts₂, hsame₂⟩ := hstep.listed (hnodes ▸ hid) hl₁
      refine ⟨l₂, hl₂, ?_, fun hnone => ?_⟩
      · rw [hprompts₂, hprompts₁, List.foldl_append]
        rfl
      · rw [hsame₂ (hnone r (by simp)), hsame₁ fun q hq => hnone q (List.mem_append_left _ hq)]

/-- After any row of stores, deletions and invalidations the history of a node that is there has the
prompts that the rule says, oldest first, and at most as many as the limit.  A history that no request
is about keeps its very records, and the record that was stored last of all stands at the end of its
history.  A node that is not there has no history. -/
theorem history_after_session (hlimit : 1 ≤ c.limit) (hS : Set.InjOn c.digest S) (hw : w.Sound)
    (hd : Dated c.digest S w) {rs : List Request} (hrs : ∀ r ∈ rs, r.Caches c S) (n : Node)
    (tool : String) :
    ∃ l l', (history n (some tool)).run w = .ok l w ∧
      (history n (some tool)).run (w.session (rs.map .asked)) =
        .ok l' (w.session (rs.map .asked)) ∧
      (n.id ∈ keys w.tables.nodes → l'.map GenerationRecord.prompt =
        rs.foldl (revise c.limit n.id tool) (l.map GenerationRecord.prompt)) ∧
      (n.id ∉ keys w.tables.nodes → l' = []) ∧
      (l.length ≤ c.limit → l'.length ≤ c.limit) ∧
      ((∀ r ∈ rs, ¬ r.Concerns n.id tool) → l' = l) ∧
      ∀ rest prompt output json, rs = rest ++ [.store c n tool prompt output json] →
        n.id ∈ keys w.tables.nodes →
          ∃ q, l'.getLast? = some q ∧ Stored c.digest n.id tool prompt output json q := by
  obtain ⟨l, hl, hrun⟩ := Listed.of_dated hw hd n tool
  have hretells := retells_session hlimit hS hw hd hrs
  have hw' := Workspace.sound_session (rs.map .asked) hw
  by_cases hn : n.id ∈ keys w.tables.nodes
  · obtain ⟨l', hl', hprompts, hsame⟩ := hretells.listed hn hl
    refine ⟨l, l', hrun, hl'.history_run hw' hretells.dated, fun _ => hprompts, fun h => absurd hn h,
      fun hlength => ?_, hsame, ?_⟩
    · rw [← List.length_map (f := GenerationRecord.prompt), hprompts]
      rw [← List.length_map (f := GenerationRecord.prompt)] at hlength
      exact List.foldlRecOn (motive := fun ps : List String => ps.length ≤ c.limit) rs _ hlength
        fun _ h r _ => r.length_revise_le h
    · rintro rest prompt output json rfl -
      have hrest := retells_session hlimit hS hw hd fun r hr => hrs r (List.mem_append_left _ hr)
      obtain ⟨l₁, hl₁, -⟩ := hrest.listed hn hl
      obtain ⟨-, hp⟩ : Caches c S (.store c n tool prompt output json) := hrs _ (by simp)
      obtain ⟨q, hq, hlast⟩ := listed_store hlimit hS
        (Workspace.sound_session _ hw) hrest.dated output json hp (hrest.nodes ▸ hn) hl₁
      rw [List.map_append, List.map_singleton, Workspace.session_append_asked, op, after_discard] at hl'
      refine ⟨q, ?_, hq⟩
      rw [hl'.eq hlast, latest, List.getLast?_drop, if_neg]
      · exact List.getLast?_concat ..
      · rw [List.length_append, List.length_singleton]
        omega
  · obtain ⟨l', hl', hrun'⟩ := Listed.of_dated hw' hretells.dated n tool
    have hnil := hl.eq_nil hw hn
    have hnil' := hl'.eq_nil hw' (hretells.nodes ▸ hn)
    exact ⟨l, l', hrun, hrun', fun h => absurd h hn, fun _ => hnil', fun _ => hnil' ▸ Nat.zero_le _,
      fun _ => hnil'.trans hnil.symm, fun _ _ _ _ _ h => absurd h hn⟩

/-! ## A row of requests -/

/-- Without records there is nothing to ask for. -/
theorem Dated.of_nil (h : w.tables.records = []) (digest : String → String) (S : Set String) :
    Dated digest S w := by
  have hnone {i : String} {r : GenerationRecord} : Assoc.get? i w.tables.records ≠ some r := by
    rw [h]
    exact fun h => nomatch h
  exact ⟨fun hr => absurd hr hnone, fun hr => absurd hr hnone, fun hr => absurd hr hnone,
    fun hr => absurd hr hnone, fun hr => absurd hr hnone⟩

theorem Listed.of_nil (h : w.tables.records = []) (id tool : String) : Listed w id tool [] where
  ordered := .nil
  mem := by simp [h]

/-- A graph with one node and without records. -/
@[irreducible] def sampleGraph : Workspace :=
  Project.blank.emptied.session [.asked (.getOrCreate none .project "demo" none)]

/-- A cache that keeps two records of a node for a tool. -/
def sampleCache : Cache := { limit := 2 }

theorem injOn_sampleCache : Set.InjOn sampleCache.digest {p | p ∈ ["a", "b", "c"]} := by
  have hnodup : (["a", "b", "c"].map sampleCache.digest).Nodup := by decide +kernel
  exact fun p hp p' hp' heq => List.inj_on_of_nodup_map hnodup hp hp' heq

theorem sampleGraph_eq : sampleGraph.tables.records.isEmpty = true ∧ sampleGraph.tables.nodes.length = 1 := by
  unfold sampleGraph
  decide +kernel

/-- Four prompts are stored, one of them again. -/
def sampleRow (n : Node) : List Request :=
  [.store sampleCache n "t" "a" "1" none, .store sampleCache n "t" "b" "2" none,
    .store sampleCache n "t" "a" "3" none, .store sampleCache n "t" "c" "4" none]

/-- A prompt that is stored again is as new as if it had not been there before. -/
theorem history_after_session_sample : ∃ (n : Node) (l : List GenerationRecord),
    n.id ∈ keys sampleGraph.tables.nodes ∧
    (history n (some "t")).run (sampleGraph.session ((sampleRow n).map .asked)) =
      .ok l (sampleGraph.session ((sampleRow n).map .asked)) ∧
    l.map GenerationRecord.prompt = ["a", "c"] := by
  have hnil : sampleGraph.tables.records = [] := List.isEmpty_iff.mp sampleGraph_eq.1
  have hw : sampleGraph.Sound := by
    unfold sampleGraph
    exact Workspace.sound_session _ Project.blank.sound_emptied
  obtain ⟨e, he⟩ := List.length_eq_one_iff.mp sampleGraph_eq.2
  let n : Node := { e.2 with id := e.1 }
  have hn : n.id ∈ keys sampleGraph.tables.nodes := by
    rw [he]
    exact .head _
  have hd := Dated.of_nil hnil sampleCache.digest {p | p ∈ ["a", "b", "c"]}
  have hrs : ∀ r ∈ sampleRow n, r.Caches sampleCache {p | p ∈ ["a", "b", "c"]} := by
    simp [sampleRow, Caches]
  obtain ⟨l, l', hl, hl', hprompts, -⟩ :=
    history_after_session (by decide) injOn_sampleCache hw hd hrs n "t"
  rw [(Listed.of_nil hnil n.id "t").history_run hw hd] at hl
  cases hl
  refine ⟨n, l', hn, hl', (hprompts hn).trans ?_⟩
  simp [sampleRow, revise, latest, sampleCache]

end Cache

end IntentBuild
