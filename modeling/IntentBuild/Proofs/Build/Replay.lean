import IntentBuild.Proofs.Build.Budget
import IntentBuild.Proofs.Build.Lowered
import IntentBuild.Proofs.Build.Readiness
import IntentBuild.Proofs.Operation.Rest
import IntentBuild.Proofs.Result.Retraction

/-!
# Units that run again

A run of a unit that returns, or that fails for the errors of its result, leaves a record of the result and
a node with the time of the input (`Work.Finished.leaves`).  While these two stay, a unit that is made anew
for the node and asks with the same prompt for an input of the same time finds the result in the cache.  It
calls no model, stores no record, and ends as the first run did (`Work.replays`).

What this asks for is that the result can be applied once more.  That a result was applied before does not
say so: its entries may stand in each other's way.
-/

namespace IntentBuild

open Op
open Assoc (keys)
open Json.Read (Stable)

/-- The failure is that of a result with errors. -/
def Failure.IsDiagnostics (e : Failure) : Prop := ∃ label n, e = .build (.diagnostics label n)

instance : Failure.OfBuild Failure.IsDiagnostics := ⟨fun ⟨_, _, h⟩ => ⟨_, h⟩⟩

/-! ## Results that are validated again -/

/-- Two results are written the same and have the same diagnostics. -/
structure ResultSchema.Twins {ρ : Type} (S : ResultSchema ρ) (a b : ρ) : Prop where
  /-- The text. -/
  json : S.toJson b = S.toJson a
  /-- The diagnostics. -/
  diagnostics : S.diagnostics b = S.diagnostics a

theorem ResultSchema.Twins.refl {ρ : Type} (S : ResultSchema ρ) (a : ρ) : S.Twins a a := ⟨rfl, rfl⟩

namespace Work

variable {ρ : Type} {u u' : Work ρ} {r r' : Runner} {c c' : BuildContext} {q : Query} {a b : ρ}
  {w w' v : Workspace}

/-- What is written for a result that was validated is valid again and gives a twin of it, which passes the
check that the result has passed. -/
structure Repeats (u : Work ρ) : Prop where
  /-- The twin. -/
  again : ∀ {ms a}, Reply.validate u.schema (.obj ms) = .ok a → ∃ ms' b,
    (u.schema.toJson a).members? = some ms' ∧ Reply.validate u.schema (.obj ms') = .ok b ∧
      u.schema.Twins a b ∧ ∀ n, u.check n a = .ok () → u.check 0 b = .ok ()

/-- A schema that reads back what it writes gives the result itself again. -/
theorem repeats_of_stable (h : Stable u.schema.read u.schema.toJson)
    (hobject : ∀ a, ∃ ms, u.schema.toJson a = .obj ms) (hu : u.Uniform) : u.Repeats where
  again {ms a} ha := by
    obtain ⟨ms', hms'⟩ := hobject a
    have hread := h (ResultSchema.validate_eq_ok.mp ha)
    rw [hms'] at hread
    refine ⟨ms', a, by rw [hms']; rfl, ResultSchema.validate_eq_ok.mpr hread, .refl _ _, fun n hn => ?_⟩
    rw [hu 0 n a, hn]

theorem Built.repeats (h : Built c u) : u.Repeats := by
  have huniform := h.generative.uniform
  cases h with
  | techStack => exact repeats_of_stable TechStackResult.stable_read (fun _ => ⟨_, rfl⟩) huniform
  | lowering _ h hu =>
      obtain ⟨_, _, _, _, _, file, rfl⟩ := Lowering.mem_works h _ hu
      exact repeats_of_stable LoweringResult.stable_read (fun _ => ⟨_, rfl⟩) huniform
  | indexing _ h hu =>
      obtain ⟨_, _, _, file, rfl⟩ := Indexing.mem_works h _ hu
      refine ⟨fun {ms a} ha => ⟨_, { a with tree := a.tree.finite }, rfl, ?_, ?_, fun _ _ => rfl⟩⟩
      · have hread : IndexResult.read (.obj ms) = .ok a := ResultSchema.validate_eq_ok.mp ha
        exact ResultSchema.validate_eq_ok.mpr (IndexResult.read_toJson hread)
      · exact ⟨IndexResult.toJson_finite a, rfl⟩
  | compilation hw h hu =>
      obtain ⟨_, _, file, _, -, rfl⟩ := Compilation.mem_works hw h _ hu
      exact repeats_of_stable CompileResult.stable_read (fun _ => ⟨_, rfl⟩) huniform

/-! ## The end of a run -/

/-- How a run ends that has obtained a result, applied it and stamped its node. -/
def outcome (u : Work ρ) (p : ρ × Option Nat) (w : Workspace) :
    EStateM.Result Failure Workspace (UnitReport ρ) :=
  if (u.schema.diagnostics p.1).errors.isEmpty then
    .ok { label := u.label, result := p.1, cached := p.2.isNone, attempts := p.2.getD 0 } w
  else .error (.build (.diagnostics u.label (u.schema.diagnostics p.1).errors.length)) w

/-- A loop of notices adds notices. -/
theorem notices_run {β : Type} (l : List β) (f : β → Notice) (w : Workspace) : ∃ ns,
    (forIn l PUnit.unit fun m _ => notify (f m) >>= fun _ => pure (.yield ⟨⟩)).run w =
      .ok ⟨⟩ { w with notices := ns } := by
  induction l generalizing w with
  | nil => exact ⟨w.notices, rfl⟩
  | cons m l ih =>
      obtain ⟨ns, hns⟩ := ih { w with notices := f m :: w.notices }
      have hstep : (notify (f m) >>= fun _ => pure (ForInStep.yield PUnit.unit)).run w =
        .ok (.yield ⟨⟩) { w with notices := f m :: w.notices } := rfl
      exact ⟨ns, by rw [List.forIn_cons, bind_ok hstep, hns]⟩

theorem surface_run (label : String) (d : Diagnostics) (w : Workspace) : ∃ ns,
    (surface label d).run w = if d.errors.isEmpty then .ok ⟨⟩ { w with notices := ns }
      else .error (.build (.diagnostics label d.errors.length)) { w with notices := ns } := by
  obtain ⟨ns, hns⟩ := notices_run d.warnings (.warned label) w
  obtain ⟨ns', hns'⟩ := notices_run d.errors (.failed label) { w with notices := ns }
  refine ⟨ns', (bind_ok hns).trans ((bind_ok hns').trans ?_)⟩
  cases d.errors.isEmpty <;> rfl

/-- Where a result is applied and the node stamped, a run ends with what the diagnostics say. -/
theorem conclude_run {p : ρ × Option Nat} {w₁ w₂ : Workspace}
    (happly : (u.apply p.1).run w = .ok ⟨⟩ w₁) (hstamp : (stamp q.node q.changed).run w₁ = .ok ⟨⟩ w₂) :
    ∃ ns, (u.conclude q p).run w = u.outcome p { w₂ with notices := ns } := by
  obtain ⟨ns, hns⟩ := surface_run u.label (u.schema.diagnostics p.1) w₂
  refine ⟨ns, ?_⟩
  rw [conclude, bind_ok happly, close, bind_ok hstamp, outcome]
  split at hns
  · rw [bind_ok hns, if_pos ‹_›]
    rfl
  · rw [bind_error hns, if_neg ‹_›]

/-- The outcome is a report, or the failure of a result with errors. -/
def Finished (o : EStateM.Result Failure Workspace (UnitReport ρ)) (w' : Workspace) : Prop :=
  (∃ report, o = .ok report w') ∨ ∃ label n, o = .error (.build (.diagnostics label n)) w'

/-- What does not fail for errors of a result is passed by a run that finishes. -/
theorem Finished.of_bind {α : Type} {x : Op α} {f : α → Op (UnitReport ρ)}
    (h : Finished ((x >>= f).run w) w') (hx : Avoids Failure.IsDiagnostics x) :
    ∃ a w₁, x.run w = .ok a w₁ ∧ Finished ((f a).run w₁) w' := by
  cases hrun : x.run w with
  | ok a w₁ => exact ⟨a, w₁, rfl, by rwa [bind_ok hrun] at h⟩
  | error e w₁ =>
      rw [bind_error hrun] at h
      rcases h with ⟨_, h⟩ | ⟨label, n, h⟩
      · cases h
      · cases h
        exact absurd ⟨label, n, rfl⟩ (hx.out hrun)

theorem avoids_failIfCancelled (place : String) :
    Avoids Failure.IsDiagnostics (failIfCancelled place) :=
  .bind .get fun _ => .ite (.throw fun ⟨_, _, h⟩ => nomatch h) (.pure _)

theorem avoids_generateFrom (u : Work ρ) (endpoint : Endpoint) (prompt : String) (left : Nat) :
    ∀ checked reasons, Avoids Failure.IsDiagnostics (u.generateFrom endpoint prompt left checked reasons) := by
  induction left with
  | zero => exact fun _ _ => (avoids_notify _).bind fun _ => .throw fun ⟨_, _, h⟩ => nomatch h
  | succ left ih =>
      intro checked reasons
      have hsend (call : Call) : Avoids Failure.IsDiagnostics (send endpoint call) := ⟨nofun⟩
      refine (avoids_failIfCancelled _).bind fun _ => .bind ((hsend _).bind fun _ => .pure _) fun a => ?_
      split
      · exact .pure _
      · exact (avoids_notify _).bind fun _ => ih _ _

theorem avoids_obtain (u : Work ρ) (r : Runner) (n : Node) (stale : Bool) (prompt : String) :
    Avoids Failure.IsDiagnostics (u.obtain r n stale prompt) := by
  refine (heedless_cached ..).bind fun p => ?_
  obtain ⟨_ | a, checked⟩ := p
  · exact (avoids_generateFrom ..).bind fun _ => (Cache.heedless_store ..).bind fun _ => .pure _
  · exact .pure _

theorem Generative.avoids_ask (hu : u.Generative) : Avoids Failure.IsDiagnostics u.ask := by
  obtain ⟨file, type, name, hnode, -⟩ := hu.node
  refine (avoids_failIfCancelled _).bind fun _ => hu.asks.bind fun _ =>
    (heedless_inputTime u).bind fun _ => .bind ?_ fun _ => (heedless_isStale _ _).bind fun _ => .pure _
  rw [hnode]
  exact Graph.avoids_getOrCreate ..

/-- A run that finishes has obtained a result, applied it and stamped its node. -/
theorem Finished.parts (hu : u.Generative) (h : Finished ((u.run r).run w) w') :
    ∃ q w₁ p w₂ w₃ w₄ ns, u.ask.run w = .ok q w₁ ∧
      (u.obtain r q.node q.stale q.prompt).run w₁ = .ok p w₂ ∧ (u.apply p.1).run w₂ = .ok ⟨⟩ w₃ ∧
      (stamp q.node q.changed).run w₃ = .ok ⟨⟩ w₄ ∧ w' = { w₄ with notices := ns } ∧
      (u.run r).run w = u.outcome p w' := by
  rw [run_eq] at h
  obtain ⟨q, w₁, hask, h₁⟩ := h.of_bind hu.avoids_ask
  obtain ⟨p, w₂, hobtain, h₂⟩ := h₁.of_bind (avoids_obtain ..)
  obtain ⟨_, w₃, happly, h₃⟩ := h₂.of_bind (hu.apply p.1)
  obtain ⟨_, w₄, hstamp, -⟩ := h₃.of_bind (heedless_stamp ..)
  obtain ⟨ns, hconclude⟩ := conclude_run happly hstamp
  have hend : w' = { w₄ with notices := ns } := by
    rw [hconclude, outcome] at h₂
    split at h₂ <;> rcases h₂ with ⟨_, h₂⟩ | ⟨_, _, h₂⟩ <;> cases h₂ <;> rfl
  refine ⟨q, w₁, p, w₂, w₃, w₄, ns, hask, hobtain, happly, hstamp, hend, ?_⟩
  rw [run_eq, bind_ok hask, bind_ok hobtain, hconclude, hend]

/-! ## The record of a result -/

/-- A record has a twin of a result for a node and a prompt. -/
structure Stocked (u : Work ρ) (digest : String → String) (id prompt : String) (a : ρ) (w : Workspace) :
    Prop where
  /-- The record is valid. -/
  record : ∃ record ms b, Assoc.get? record.id w.tables.records = some record ∧
    record.key = ⟨id, u.tool.toolId, digest prompt⟩ ∧ record.prompt = prompt ∧ record.json = some ms ∧
    Reply.validate u.schema (.obj ms) = .ok b ∧ u.check 0 b = .ok () ∧ u.schema.Twins a b

/-- A result that was obtained has a record, whether it was taken from the cache or stored there. -/
theorem stocked_of_obtain (hu : u.Repeats) (hw : w.Sound) {n : Node} {stale : Bool} {prompt : String}
    {p : ρ × Option Nat} (h : (u.obtain r n stale prompt).run w = .ok p w') :
    u.Stocked r.cache.digest n.id prompt p.1 w' := by
  obtain ⟨⟨o, checked⟩, w₁, hcached, hrest⟩ := bind_eq_ok.mp h
  cases o with
  | some a =>
      cases hrest
      cases stale with
      | true => cases hcached
      | false =>
          obtain ⟨o, w₂, hlookup, hof⟩ := bind_eq_ok.mp hcached
          obtain ⟨found, w₃, hfind, hmatch⟩ := bind_eq_ok.mp hlookup
          obtain rfl := (Graph.reader_findRecord? _).eq hfind
          obtain ⟨hof, hend⟩ := EStateM.Result.ok.inj hof
          obtain ⟨record, ms, rfl, hms, ha, hcheck⟩ := ofRecord_eq_some hof
          subst hend
          have hfound := (Graph.findRecord?_eq_ok hw hfind).1
          cases found with
          | none => cases hmatch
          | some found =>
              dsimp only at hmatch
              split at hmatch
              · cases hmatch
                obtain ⟨hrecord, hkey⟩ := hfound record rfl
                exact ⟨record, ms, a, hrecord, hkey, beq_iff_eq.mp ‹_›, hms, ha, hcheck, .refl _ _⟩
              · cases hmatch
  | none =>
      obtain ⟨⟨a, n'⟩, w₂, hgenerate, h₁⟩ := bind_eq_ok.mp hrest
      obtain ⟨record, w₃, hstore, h₂⟩ := bind_eq_ok.mp h₁
      cases h₂
      have hcache := (runs_cached (A := Event.Any) u r.cache n stale prompt w).ok hw hcached
      obtain ⟨hcalls, calls, m, hjudged⟩ := (runs_generateFrom (R := .any) trivial u r.endpoint prompt
        attemptBudget checked [] w₁).ok (hcache.1.sound hw) hgenerate
      obtain ⟨hstored, hrecord⟩ :=
        Cache.store_eq_ok _ _ _ _ _ (hcalls.sound (hcache.1.sound hw)) hstore
      obtain ⟨_, ms, -, hvalid, hpassed⟩ := read_of_judge hjudged
      obtain ⟨ms', b, hms', hb, htwins, hcheck⟩ := hu.again hvalid
      exact ⟨record, ms', b, hrecord, by rw [GenerationRecord.key, hstored.node, hstored.tool, hstored.hash],
        hstored.prompt, by rw [hstored.json, hms'], hb, hcheck m hpassed, htwins⟩

end Work

/-! ## What applying a result leaves alone -/

/-- The change drops no node of a class and no record of such a node, stores no record and calls no model. -/
def Event.Preserves (S : String → Prop) : Event → Prop
  | .dropNode n => ¬ S n.id
  | .dropRecord r => ¬ S r.nodeId
  | .record _ | .calls => False
  | _ => True

theorem Event.Preserves.spares {S : String → Prop} {e : Event} (he : e.Preserves S) : e.Spares S := by
  cases e <;> first | exact he | trivial

/-- The changes that leave the nodes of a class and their records alone. -/
def Regime.preserving (w₀ : Workspace) (S : String → Prop) : Regime where
  admits := Event.Preserves S
  holds := w₀.Stay S
  lasts hw hr h := Lasts.reach (w₀.lasts_stay S) hw (hr.mono fun _ he => he.spares) h

namespace Regime

variable {w₀ : Workspace} {S : String → Prop} {type : NodeType} {c : BuildContext}

theorem declares_preserving : (preserving w₀ S).Declares :=
  ⟨fun _ _ _ => trivial, fun _ _ _ => trivial, fun _ => trivial, fun _ _ => trivial⟩

theorem derives_preserving (file : Node) (type : NodeType) : (preserving w₀ S).Derives file type :=
  ⟨fun _ _ _ _ => trivial, fun _ _ _ _ => trivial⟩

theorem places_preserving (root : Node) (kind : Graph.FileKind) : (preserving w₀ S).Places root kind :=
  fun _ _ _ _ _ => trivial

/-- A deletion that starts outside a shelter leaves its nodes and their records alone. -/
theorem forgets_preserving (hS : w₀.Shelter S) (hT : w₀.Lacks S type) :
    (preserving w₀ S).Forgets type := by
  intro w n hI hn ht hw
  have hrun : Runs (fun e => e.Preserves S ∧ e.Drops fun m => ¬ S m.id) w (Graph.cascadeDelete n true)
      fun _ _ => True := by
    refine (Graph.runs_cascadeDelete (D := fun m => ¬ S m.id) (fun _ _ _ _ => ⟨trivial, trivial⟩)
      (fun m r hm hr => ⟨show ¬ S r.nodeId by rwa [hr], trivial⟩) (fun m hm => ⟨hm, hm⟩)
      ⟨fun hid _ h => hid ▸ h, ?_⟩ ?_).weaken fun _ _ _ _ => trivial
    · intro w' p d hr _ hp hpS hd hparent hdS
      have hdrops : Reach (Event.Drops fun m => ¬ S m.id) w w' := hr.mono fun _ he => he.2
      obtain ⟨k, hk⟩ := hS.known hdS
      have hkey := (hI _ _ hdS hk).key_eq (.of_node? (Graph.node?_of_drops hdrops hd))
      exact hpS (hS.above hdS hk (hkey ▸ hparent))
    · intro w' m hr hm
      rw [(hr.sound hw).wellFormed.nodes.owned hm]
      exact hT.not_mem hS hI hn ht
  exact (hrun.mono fun _ he => he.1) hw

theorem resolves_preserving (file : Node) : (preserving w₀ S).Resolves c file where
  toDeclares := declares_preserving
  toDerives := derives_preserving file _
  summary _ _ := trivial

theorem lowers_preserving (file : Node) (hS : w₀.Shelter S) (hT : w₀.Lacks S .intentFile) :
    (preserving w₀ S).Lowers c file where
  toDeclares := declares_preserving
  toDerives := derives_preserving file _
  places := places_preserving _ _
  forgets := forgets_preserving hS hT
  entry _ _ _ := ⟨fun _ => trivial, trivial⟩

theorem compiles_preserving (file : Node) (relative : String) :
    (preserving w₀ S).Compiles c file relative where
  toDeclares := declares_preserving
  toDerives := derives_preserving file _
  places := places_preserving _ _
  source _ _ := trivial
  output _ _ _ _ _ _ := trivial
  input _ _ _ _ _ := trivial

end Regime

namespace Work

variable {ρ : Type} {u u' : Work ρ} {r r' : Runner} {c c' : BuildContext} {q : Query} {a b : ρ}
  {w w' v v' : Workspace}

/-- A unit of a generative stage that was made on the way to a workspace. -/
inductive Due (c : BuildContext) : {ρ : Type} → Work ρ → Workspace → Prop
  | techStack (tool : ToolConfig) (path : Path) (file : Node) (w : Workspace) :
      Due c (TechStack.work c tool path file) w
  | lowering {R : Path} {us : List (Work LoweringResult)} {u : Work LoweringResult} {w₀ w₁ w : Workspace}
      (hc : c.project.Placed R) (hready : Build.Ready c w₀) (h : (Lowering.works c).run w₀ = .ok us w₁)
      (hu : u ∈ us) (hr : Reach Event.Any w₁ w) : Due c u w
  | indexing {us : List (Work IndexResult)} {u : Work IndexResult} {w₀ w₁ w : Workspace}
      (hw : w₀.Sound) (h : (Indexing.works c).run w₀ = .ok us w₁) (hu : u ∈ us) : Due c u w
  | compilation {us : List (Work CompileResult)} {u : Work CompileResult} {w₀ w₁ w : Workspace}
      (hw : w₀.Sound) (h : (Compilation.works c).run w₀ = .ok us w₁) (hu : u ∈ us) : Due c u w

theorem Due.built (h : Due c u w) : Built c u := by
  cases h with
  | techStack => exact .techStack ..
  | lowering _ hready h hu => exact .lowering hready.sound h hu
  | indexing hw h hu => exact .indexing hw h hu
  | compilation hw h hu => exact .compilation hw h hu

/-- Applying a result of a unit leaves the node at its address alone, with all that is above it and with
the records. -/
theorem Due.site (h : Due c u w) : ∃ file type name,
    u.node = Graph.getOrCreate (some file) type name none ∧
      ∀ {v i instanceId}, Reach Event.Any w v → v.Sound →
        v.Keyed i ⟨some file.id, instanceId, type, name⟩ → u.Fits (.preserving v (v.Above i)) := by
  cases h with
  | techStack =>
      exact ⟨_, _, _, rfl, fun _ _ _ => TechStack.fits_work (Regime.resolves_preserving _) ..⟩
  | indexing _ h hu =>
      obtain ⟨_, _, _, _, rfl⟩ := Indexing.mem_works h _ hu
      exact ⟨_, _, _, rfl, fun _ _ _ => Indexing.fits_unit (Regime.derives_preserving _ _) ..⟩
  | compilation hw h hu =>
      obtain ⟨_, _, _, _, -, rfl⟩ := Compilation.mem_works hw h _ hu
      exact ⟨_, _, _, rfl, fun _ _ _ => Compilation.fits_unit (Regime.compiles_preserving _ _) ..⟩
  | @lowering R _ _ _ w₁ _ hc hready h hu hr₁ =>
      have hne : (R.child "specs").names ≠ [] := R.child_ne_nil (by decide)
      obtain ⟨hw₁, hbase, hmade⟩ :=
        Lowering.works_eq_ok hc.specs hne hready.sound hready.proper.files hready.specs h
      obtain ⟨_, -, _, _, _, _, _, file, rfl, hstands⟩ := Reader.mem_of_forall₂ hmade hu
      refine ⟨file, _, _, rfl, fun {v i _} hr hv hi => ?_⟩
      obtain ⟨n, hn, hkey⟩ := hi
      have hfile := hv.wellFormed.parents hn (congrArg NodeKey.parent hkey)
      have hclear : v.Clear .intentFile file.id :=
        (hstands.clear hbase.intent (by decide) (by decide)).later hw₁ (hr₁.trans hr) hfile
      have hi : v.Keyed i _ := ⟨n, hn, hkey⟩
      exact Lowering.fits_unit (Regime.lowers_preserving _ (v.shelter_above hv hi)
        (hclear.child hi rfl nofun).lacks_above) ..

theorem Due.keyed (h : Due c u w) {n : Node} (hv : v.Sound) (hget : u.node.run v = .ok n v') :
    v'.Keyed n.id n.key := by
  obtain ⟨file, type, name, hnode, -⟩ := h.site
  rw [hnode] at hget
  exact .of_node? (((Graph.runs_getOrCreate (A := Event.Any) fun _ _ _ _ => trivial).ok hv hget).2.node?
    hv.wellFormed).1

/-- Applying a result leaves the node that the unit asked for, and the records of that node. -/
theorem Due.applied (h : Due c u w) {n : Node} {m : Nat} {v₀ v₁ : Workspace} (hv₀ : v₀.Sound)
    (hget : u.node.run v₀ = .ok n v₁) (hr : Reach Event.Any w v) (hv : v.Sound)
    (hk : v.Keyed n.id n.key) (hcheck : u.check m a = .ok ()) (happly : (u.apply a).run v = .ok ⟨⟩ v') :
    Reach (Event.Preserves (v.Above n.id)) v v' ∧ v'.Keyed n.id n.key := by
  obtain ⟨file, type, name, hnode, hsite⟩ := h.site
  rw [hnode] at hget
  have hfound := ((Graph.runs_getOrCreate (A := Event.Any) fun _ _ _ _ => trivial).ok hv₀ hget).2
  have hfits := hsite hr hv ((hfound.node? hv₀.wellFormed).2 ▸ hk)
  have hreach := (((hfits.apply hcheck).runs v (.refl v _)).ok hv happly).1
  exact ⟨hreach, Lasts.reach (v.lasts_stay _) hv (hreach.mono fun _ he => he.spares) (.refl v _) _ _
    .refl hk⟩

/-! ## What a run leaves -/

theorem Stocked.reach {digest : String → String} {S : String → Prop} {i prompt : String}
    (h : u.Stocked digest i prompt a w) (hw : w.Sound) (hi : S i)
    (hr : Reach (Event.Preserves S) w w') : u.Stocked digest i prompt a w' := by
  obtain ⟨record, ms, b, hrecord, hkey, hrest⟩ := h.record
  refine ⟨record, ms, b, Lasts.reach (Cache.lasts_record record) hw (hr.mono fun e he => ?_) hrecord, hkey,
    hrest⟩
  have hnode : record.nodeId = i := congrArg RecordKey.node hkey
  constructor
  · rintro rfl
    exact he (hnode.symm ▸ hi)
  · cases e with
    | record => exact he.elim
    | _ => exact id

/-- The node of a query has the time of the input. -/
def Query.Stamped (q : Query) (w : Workspace) : Prop :=
  ∃ n, w.tables.node? q.node.id = some n ∧ n.key = q.node.key ∧
    ∀ s, q.changed = some s → n.contentUpdated = some s

theorem stamped_of_stamp (hw : w.Sound) (hk : w.Keyed q.node.id q.node.key)
    (h : (stamp q.node q.changed).run w = .ok ⟨⟩ w') : q.Stamped w' := by
  obtain ⟨old, hold, hkey⟩ := hk
  cases hs : q.changed with
  | none =>
      rw [hs] at h
      cases h
      exact ⟨old, hold, hkey, fun _ h => nomatch hs.symm.trans h⟩
  | some s =>
      rw [hs] at h
      obtain ⟨n, w₁, hset, hend⟩ := bind_eq_ok.mp h
      cases hend
      obtain ⟨-, old', hold', hrevised, htables⟩ :=
        (Graph.runs_setContent (A := Event.Any) fun _ _ _ _ => trivial).ok hw hset
      obtain rfl := Option.some.inj (hold.symm.trans hold')
      refine ⟨n, ?_, hrevised.key.trans hkey, fun t ht => ?_⟩
      · rw [htables, Tables.node?_putNode, if_pos (hrevised.id.trans (hw.wellFormed.nodes.owned hold)).symm]
      · rw [hs, Option.some.injEq] at ht
        exact ht ▸ hrevised.stamp

/-- A node that is there is stamped where the document of the graph can be written. -/
theorem stamp_run {n : Node} (hw : w.Sound) (hk : w.Keyed n.id n.key) (hwritable : w.Writable)
    (changed : Option Stamp) : ∃ w', (stamp n changed).run w = .ok ⟨⟩ w' := by
  cases changed with
  | none => exact ⟨w, rfl⟩
  | some s =>
      obtain ⟨m, hm, -⟩ := hk
      obtain ⟨_, w', hset, -⟩ :=
        @Graph.setContent_run w n m .keep .keep (.put (some s)) hw hm ⟨⟩ hwritable
      exact ⟨w', bind_ok hset⟩

/-- A run that finishes leaves a record of the result and a node with the time of the input. -/
theorem Finished.leaves (hu : Due c u w) (hw : w.Sound) (h : Finished ((u.run r).run w) w') :
    ∃ q w₁ p w₂, u.ask.run w = .ok q w₁ ∧ (u.obtain r q.node q.stale q.prompt).run w₁ = .ok p w₂ ∧
      (u.run r).run w = u.outcome p w' ∧ w'.Sound ∧
      u.Stocked r.cache.digest q.node.id q.prompt p.1 w' ∧ q.Stamped w' := by
  obtain ⟨q, w₁, p, w₂, w₃, w₄, ns, hask, hobtain, happly, hstamp, rfl, hrun⟩ := h.parts hu.built.generative
  refine ⟨q, w₁, p, w₂, hask, hobtain, hrun, ?_⟩
  have hfits : u.Fits .any := hu.built.fits (Regime.builds_any c).toCrafts
  obtain ⟨w₀, hprompt, -, hget, -⟩ := ask_eq_ok hask
  have hw₀ := ((hfits.prompt.runs w trivial).ok hw hprompt).1.sound hw
  have hreach₁ := ((hfits.ask.runs w trivial).ok hw hask).1
  have hw₁ := hreach₁.sound hw
  obtain ⟨hobtained, m, hcheck⟩ := (runs_obtain (A := fun e => e.Leaves q.node.id) trivial
    (fun _ => trivial) fun _ _ _ => trivial).ok hw₁ hobtain
  have hw₂ := hobtained.sound hw₁
  have hkeyed₂ := Lasts.reach (lasts_keyed _ _) hw₁ hobtained (hu.keyed hw₀ hget)
  obtain ⟨happlied, hkeyed₃⟩ := hu.applied hw₀ hget (hreach₁.trans (hobtained.mono fun _ _ => trivial)) hw₂
    hkeyed₂ hcheck happly
  have hw₃ := happlied.sound hw₂
  have hstamped := (((safe_stamp (R := .only (Event.Preserves (w₂.Above q.node.id)))
    ⟨fun _ _ _ _ _ => trivial⟩ q.node q.changed).runs w₃ trivial).ok hw₃ hstamp).1
  have hw₄ := hstamped.sound hw₃
  have hstocked := ((stocked_of_obtain hu.built.repeats hw₁ hobtain).reach hw₂ .refl happlied).reach hw₃
    .refl hstamped
  have hnode : q.Stamped w₄ := stamped_of_stamp hw₃ hkeyed₃ hstamp
  exact ⟨⟨hw₄.wellFormed, hw₄.spent, hw₄.exact⟩, ⟨hstocked.record⟩, hnode⟩

/-! ## The second run -/

/-- In a later workspace a unit is made anew for the node of a query, with the same prompt for an input of
the same time.  The node and its records are as they were left. -/
structure Returns (u u' : Work ρ) (q : Query) (w v : Workspace) : Prop where
  /-- The name of the unit. -/
  label : u'.label = u.label
  /-- The tool. -/
  tool : u'.tool.toolId = u.tool.toolId
  /-- The schema of the results. -/
  schema : u'.schema = u.schema
  /-- The check of the results. -/
  check : u'.check = u.check
  /-- The address of the node. -/
  address : ∃ file type name, u'.node = Graph.getOrCreate (some file) type name none ∧
    q.node.key = ⟨some file.id, v.graph.instanceId, type, name⟩
  /-- The graph is in order. -/
  sound : v.Sound
  /-- Nothing is left to write. -/
  written : v.graph.depth = 0 → v.graph.unsaved = false
  /-- The build was not cancelled. -/
  live : v.cancelled = false
  /-- The prompt. -/
  prompt : u'.prompt.run v = .ok q.prompt v
  /-- The time of the input. -/
  time : u'.inputTime.run v = .ok q.changed v
  /-- The node is as old as it was. -/
  node : ∀ n, w.tables.node? q.node.id = some n → ∃ n', v.tables.node? q.node.id = some n' ∧
    n'.key = n.key ∧ n'.contentUpdated = n.contentUpdated
  /-- The records of the node are there. -/
  records : ∀ {record}, record.nodeId = q.node.id → Assoc.get? record.id w.tables.records = some record →
    Assoc.get? record.id v.tables.records = some record

theorem isStale_stamped {n : Node} {changed : Option Stamp}
    (h : ∀ s, changed = some s → n.contentUpdated = some s) : isStale n changed = .ok false := by
  cases changed with
  | none => rfl
  | some s => simp [isStale, h s rfl, Stamp.comparable, Stamp.le]

/-- What was left for a node is found again, and nothing is called or stored. -/
theorem Returns.run_eq (h : u.Returns u' q w v) {digest : String → String}
    (hstocked : u.Stocked digest q.node.id q.prompt a w) (hstamped : q.Stamped w)
    (hdigest : r'.cache.digest = digest) : ∃ n b, v.tables.node? q.node.id = some n ∧
      n.key = q.node.key ∧ u'.node.run v = .ok n v ∧ u.schema.Twins a b ∧ u.check 0 b = .ok () ∧
      (u'.run r').run v = (u'.conclude { q with node := n, stale := false } (b, none)).run v := by
  obtain ⟨m, hm, hmkey, hmtime⟩ := hstamped
  obtain ⟨n, hn, hkey, htime⟩ := h.node m hm
  have hkey := hkey.trans hmkey
  have hid := h.sound.wellFormed.nodes.owned hn
  obtain ⟨record, ms, b, hrecord, hrkey, hrprompt, hms, hb, hcheck, htwins⟩ := hstocked.record
  have hget : u'.node.run v = .ok n v := by
    obtain ⟨file, type, name, hnode, haddress⟩ := h.address
    have hfind : v.tables.findNode? ⟨some file.id, v.graph.instanceId, type, name⟩ = some n :=
      (Tables.findNode?_eq_some h.sound.wellFormed).mpr ⟨hid.symm ▸ hn, hkey.trans haddress⟩
    rw [hnode]
    exact Graph.getOrCreate_old hfind h.written
  refine ⟨n, b, hn, hkey, hget, htwins, hcheck, ?_⟩
  have hask : u'.ask.run v = .ok { q with node := n, stale := false } v := by
    rw [ask, bind_ok (failIfCancelled_run h.live _), bind_ok h.prompt, bind_ok h.time, bind_ok hget,
      isStale_stamped fun s hs => htime.trans (hmtime s hs), bind_ok (lift_ok ..)]
    rfl
  have hlookup : (r'.cache.lookup n u'.tool.toolId q.prompt).run v = .ok (some record) v := by
    obtain ⟨o, ho, hrow⟩ := Graph.findRecord?_run h.sound (r'.cache.keyOf n u'.tool.toolId q.prompt)
    have hkept := h.records (congrArg RecordKey.node hrkey) hrecord
    obtain rfl := (hrow record).mpr ⟨hkept, by rw [hrkey, Cache.keyOf, hid, h.tool, hdigest]⟩
    rw [Cache.lookup, bind_ok ho]
    simp [hrprompt]
  have hobtain : (u'.obtain r' n false q.prompt).run v = .ok (b, none) v := by
    have hof : u'.ofRecord (some record) = (some b, 1) := by
      simp only [ofRecord, hms, h.schema, hb, h.check, hcheck]
    have hcached : (u'.cached r'.cache n false q.prompt).run v = .ok (some b, 1) v := by
      rw [cached, if_neg Bool.false_ne_true, bind_ok hlookup, hof]
      rfl
    rw [obtain, bind_ok hcached]
    rfl
  rw [Work.run_eq, bind_ok hask, bind_ok hobtain]

/-- A finished unit replays.  While the node and its records stay, a unit that is made anew for the node,
with the same prompt for an input of the same time, takes a twin of the result from the cache: no model is
called and no record is stored.  Where the result can be applied again and the document of the graph can be
written, the run ends as the first one did, and the node has the time that it had. -/
theorem replays (hu : Due c u w) (hw : w.Sound) (h : Finished ((u.run r).run w) w') :
    ∃ q w₁ p w₂, u.ask.run w = .ok q w₁ ∧ (u.obtain r q.node q.stale q.prompt).run w₁ = .ok p w₂ ∧
      (u.run r).run w = u.outcome p w' ∧ q.Stamped w' ∧
      ∀ {c' : BuildContext} {u' : Work ρ} {r' : Runner} {v : Workspace}, Due c' u' v →
        u.Returns u' q w' v → r'.cache.digest = r.cache.digest → ∃ b, u.schema.Twins p.1 b ∧
          ((u'.run r').after v).calls = v.calls ∧
          (∀ {i record}, Assoc.get? i ((u'.run r').after v).tables.records = some record →
            Assoc.get? i v.tables.records = some record) ∧
          ((∃ e v', (u'.apply b).run v = .error e v' ∧ (u'.run r').run v = .error e v') ∨
            ∃ v₁, (u'.apply b).run v = .ok ⟨⟩ v₁ ∧ (v₁.Writable →
              ∃ v', (u'.run r').run v = u.outcome (b, none) v' ∧ q.Stamped v')) := by
  obtain ⟨q, w₁, p, w₂, hask, hobtain, hrun, hw', hstocked, hstamped⟩ := h.leaves hu hw
  refine ⟨q, w₁, p, w₂, hask, hobtain, hrun, hstamped, fun {c' u' r' v} hu' hv hdigest => ?_⟩
  obtain ⟨n, b, hn, hkey, hget, htwins, hcheck, hagain⟩ := hv.run_eq hstocked hstamped hdigest
  have hcheck' : u'.check 0 b = .ok () := by rw [hv.check, hcheck]
  refine ⟨b, htwins, ?_⟩
  have hcrafts : (Regime.only fun e => ¬ e.Records ∧ e ≠ .calls).Crafts c' :=
    Regime.crafts_of_admits (fun _ he hc => show _ ∧ _ from ⟨he, hc⟩) c'
  have hafter : Reach (fun e => ¬ e.Records ∧ e ≠ .calls) v ((u'.run r').after v) := by
    have hsafe := (hu'.built.fits hcrafts).conclude hcrafts.toKeeps { q with node := n, stale := false }
      (p := (b, none)) hcheck'
    have hreach := (hsafe.runs v trivial).after hv.sound
    unfold Op.after at hreach ⊢
    rwa [hagain]
  refine ⟨(hafter.mono fun _ he => he.2).calls_eq.1,
    Cache.record_of_reach hv.sound (hafter.mono fun _ he => he.1), ?_⟩
  cases happly : (u'.apply b).run v with
  | error e v' => exact .inl ⟨e, v', rfl, hagain.trans (bind_error happly)⟩
  | ok _ v₁ =>
      refine .inr ⟨v₁, rfl, fun hwritable => ?_⟩
      have hid : n.id = q.node.id := hv.sound.wellFormed.nodes.owned hn
      obtain ⟨happlied, hkeyed⟩ := hu'.applied hv.sound hget (.refl v) hv.sound ⟨n, hid ▸ hn, rfl⟩ hcheck'
        happly
      have hw₁ := happlied.sound hv.sound
      obtain ⟨v₂, hstamp⟩ := stamp_run hw₁ hkeyed hwritable q.changed
      obtain ⟨ns, hconclude⟩ := conclude_run (u := u') (q := { q with node := n, stale := false })
        (p := (b, none)) happly hstamp
      have houtcome : ∀ v', u'.outcome (b, none) v' = u.outcome (b, none) v' := fun v' => by
        rw [outcome, outcome, hv.label, hv.schema]
      refine ⟨_, hagain.trans (hconclude.trans (houtcome _)), ?_⟩
      obtain ⟨m, hm, hmkey, htime⟩ :=
        stamped_of_stamp (q := { q with node := n, stale := false }) hw₁ hkeyed hstamp
      exact ⟨m, hid ▸ hm, hmkey.trans hkey, htime⟩

/-- Services whose model always gives an empty object. -/
def terse : Services where
  settings := {}
  tools := { byTool := [("tech-stack", "m")], timeout := 120 }
  endpoint _ _ := ⟨.texts ["\x7b\x7d"], false⟩

/-- The unit of a specification of the tech stack. -/
def terseUnit (c : BuildContext) (file : Node) : Work TechStackResult :=
  TechStack.work c { toolId := "tech-stack:m", modelName := "m" } (.ofText "/work/demo/specs/tech-stack.md") file

/-- Writes a specification of the tech stack and starts a build of its project. -/
def startTerse : Op (BuildContext × Node) := do
  let _ ← writeIfChanged (.ofText "/work/demo/specs/tech-stack.md") "t\n"
  let c ← Build.start terse "demo"
  return (c, ← Graph.getOrCreate (some c.project.specs) .specFile "tech-stack.md" none)

theorem safe_startTerse : Safe .any startTerse :=
  (safe_writeIfChanged trivial).bind fun _ =>
    (Build.safe_start Regime.declares_any _ _).bind fun _ =>
      (Graph.safe_getOrCreate fun _ _ _ => trivial).bind fun _ => .pure _

/-- The unit of the tech stack runs again in the workspace that it left, and calls no model. -/
theorem replays_terse : ∃ (c : BuildContext) (u : Work TechStackResult) (w w' : Workspace) (q : Query)
    (report : UnitReport TechStackResult), Due c u w ∧ (u.run c.runner).run w = .ok report w' ∧
      u.Returns u q w' w' ∧ ((u.run c.runner).after w').calls = w'.calls := by
  have htest : startTerse.gives Project.sample (fun p w => ((terseUnit p.1 p.2).run p.1.runner).gives w
      fun _ w' => w'.graph.depth == 0 && !w'.graph.unsaved && !w'.cancelled &&
        (terseUnit p.1 p.2).ask.gives w fun q _ =>
          q.node.key == ⟨some p.2.id, w'.graph.instanceId, .techStackData, TechStack.dataName⟩ &&
            (terseUnit p.1 p.2).prompt.gives w' (fun s _ => s == q.prompt) &&
            (terseUnit p.1 p.2).inputTime.gives w' fun t _ => t == q.changed) = true := by
    decide +kernel
  obtain ⟨⟨c, file⟩, w, hstart, htest⟩ := gives_eq_true.mp htest
  obtain ⟨report, w', hrun, htest⟩ := gives_eq_true.mp htest
  obtain ⟨hstate, htest⟩ := Bool.and_eq_true_iff.mp htest
  obtain ⟨q, w₁, hask, htest⟩ := gives_eq_true.mp htest
  obtain ⟨htest, htime⟩ := Bool.and_eq_true_iff.mp htest
  obtain ⟨hkey, hprompt⟩ := Bool.and_eq_true_iff.mp htest
  simp only [Bool.and_eq_true, beq_iff_eq, Bool.not_eq_true'] at hstate hkey
  obtain ⟨⟨-, hwritten⟩, hlive⟩ := hstate
  obtain ⟨s, v, hprompt, hsame⟩ := gives_eq_true.mp hprompt
  obtain rfl := beq_iff_eq.mp hsame
  obtain rfl := ((reader_readText _).bind fun _ => .pure _ : Reader (terseUnit c file).prompt).eq hprompt
  obtain ⟨t, v, htime, hsame⟩ := gives_eq_true.mp htime
  obtain rfl := beq_iff_eq.mp hsame
  obtain rfl := (reader_inputTime _).eq htime
  have hw : w.Sound := ((safe_startTerse.runs _ trivial).ok Project.sound_sample hstart).1.sound
    Project.sound_sample
  have hdue : Due c (terseUnit c file) w := .techStack ..
  have hfinished : Finished (((terseUnit c file).run c.runner).run w) v := .inl ⟨report, hrun⟩
  obtain ⟨_, _, _, _, -, -, -, hv, -⟩ := hfinished.leaves hdue hw
  obtain ⟨q', w₁', p, w₂, hask', -, -, -, hreplays⟩ := replays hdue hw hfinished
  rw [hask] at hask'
  obtain ⟨rfl, rfl⟩ := EStateM.Result.ok.inj hask'
  have hreturns : (terseUnit c file).Returns (terseUnit c file) q v v :=
    { label := rfl, tool := rfl, schema := rfl, check := rfl
      address := ⟨file, .techStackData, TechStack.dataName, rfl, hkey⟩
      sound := hv, written := fun _ => hwritten, live := hlive, prompt := hprompt, time := htime
      node := fun n hn => ⟨n, hn, rfl, rfl⟩
      records := fun _ hr => hr }
  obtain ⟨_, -, hcalls, -⟩ := hreplays (.techStack ..) hreturns rfl
  exact ⟨c, terseUnit c file, w, v, q, report, hdue, hrun, hreturns, hcalls⟩

end Work

end IntentBuild
