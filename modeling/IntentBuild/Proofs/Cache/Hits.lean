import IntentBuild.Proofs.Build.Stages
import IntentBuild.Proofs.Cache.Lookups
import IntentBuild.Proofs.Project

/-!
# What units take from the cache

In a session of units that store no records themselves, every record comes from a result that a
unit before accepted (`Workspace.comes_acted`).  So a result that is taken from the cache is what
was accepted earlier, in reply to the very same prompt, for the same node, tool and model, and it
is taken only while the input has not changed since (`Cache.sound_under_any_digest`).

The units of the stages of a build are such units (`Regime.crafts_unrecorded`).
-/

namespace IntentBuild

open Op

/-- The stages of a build store no records but those of their units. -/
theorem Regime.crafts_unrecorded (c : BuildContext) : Regime.unrecorded.Crafts c :=
  Regime.crafts_of_admits (fun _ he _ => he) c

namespace Work

variable {ρ : Type} {u : Work ρ} {r : Runner} {w w' : Workspace} {q : Query}

theorem ask_eq_ok (h : u.ask.run w = .ok q w') :
    ∃ w₁, u.prompt.run w = .ok q.prompt w₁ ∧ u.inputTime.run w₁ = .ok q.changed w₁ ∧
      u.node.run w₁ = .ok q.node w' ∧ isStale q.node q.changed = .ok q.stale := by
  obtain ⟨_, w₀, h₀, h₁⟩ := bind_eq_ok.mp h
  rw [(reader_failIfCancelled _).eq h₀] at h₁
  obtain ⟨prompt, w₁, hprompt, h₂⟩ := bind_eq_ok.mp h₁
  obtain ⟨changed, w₂, hchanged, h₃⟩ := bind_eq_ok.mp h₂
  obtain ⟨node, w₃, hnode, h₄⟩ := bind_eq_ok.mp h₃
  obtain rfl := (reader_inputTime u).eq hchanged
  cases hs : isStale node changed with
  | error e => rw [hs] at h₄; cases h₄
  | ok stale =>
      rw [hs] at h₄
      cases h₄
      exact ⟨w₂, hprompt, hchanged, hnode, hs⟩

/-! ## Hits -/

/-- The unit takes a result from the cache. -/
structure Hits (u : Work ρ) (r : Runner) (w : Workspace) (q : Query) (a : ρ) : Prop where
  /-- The unit looks for a result, and obtains one without an attempt. -/
  obtains : ∃ w₁ w₂, u.ask.run w = .ok q w₁ ∧
    (u.obtain r q.node q.stale q.prompt).run w₁ = .ok (a, none) w₂

/-- A run that takes a result from the cache concludes with this result. -/
theorem Hits.run {a : ρ} (h : u.Hits r w q a) :
    ∃ w', (u.run r).run w = (u.conclude q (a, none)).run w' := by
  obtain ⟨w₁, w₂, hask, hobtain⟩ := h.obtains
  exact ⟨w₂, by rw [run_eq, bind_ok hask, bind_ok hobtain]⟩

/-- A run that reports a result of the cache has taken it from there. -/
theorem hits_of_run {report : UnitReport ρ} (h : (u.run r).run w = .ok report w')
    (hc : report.cached = true) : ∃ q, u.Hits r w q report.result := by
  rw [run_eq] at h
  obtain ⟨q, w₁, hask, h₁⟩ := bind_eq_ok.mp h
  obtain ⟨p, w₂, hobtain, h₂⟩ := bind_eq_ok.mp h₁
  obtain ⟨_, w₃, -, h₃⟩ := bind_eq_ok.mp h₂
  obtain ⟨_, w₄, -, h₄⟩ := bind_eq_ok.mp h₃
  obtain ⟨_, w₅, -, h₅⟩ := bind_eq_ok.mp h₄
  cases h₅
  obtain ⟨result, _ | n⟩ := p
  · exact ⟨q, w₁, w₂, hask, hobtain⟩
  · cases hc

/-- A result of the cache is that of a record for the prompt, and is not stale. -/
theorem Hits.record {a : ρ} (h : u.Hits r w q a) (hu : u.Fits .unrecorded) (hw : w.Sound) :
    q.stale = false ∧ ∃ record ms, Assoc.get? record.id w.tables.records = some record ∧
      record.nodeId = q.node.id ∧ record.toolId = u.tool.toolId ∧ record.prompt = q.prompt ∧
      record.json = some ms ∧ Reply.validate u.schema (.obj ms) = .ok a := by
  obtain ⟨w₁, w₂, hask, hobtain⟩ := h.obtains
  have hreach := ((hu.ask.runs w trivial).ok hw hask).1
  obtain ⟨p, w₃, hcached, hrest⟩ := bind_eq_ok.mp hobtain
  obtain ⟨_ | a', checked⟩ := p
  · -- A generated result comes with its count of attempts.
    obtain ⟨g, w₄, -, h₁⟩ := bind_eq_ok.mp hrest
    obtain ⟨_, w₅, -, h₂⟩ := bind_eq_ok.mp h₁
    cases h₂
  · cases hrest
    cases hstale : q.stale with
    | true => rw [hstale] at hcached; cases hcached
    | false =>
        rw [hstale] at hcached
        obtain ⟨o, w₆, hlookup, hrow⟩ :=
          Cache.lookup_run (hreach.sound hw) r.cache q.node u.tool.toolId q.prompt
        obtain ⟨o', w₇, hlookup', hof⟩ := bind_eq_ok.mp hcached
        rw [hlookup] at hlookup'
        cases hlookup'
        obtain ⟨record, ms, ho, hms, ha, -⟩ := ofRecord_eq_some (EStateM.Result.ok.inj hof).1
        obtain ⟨hrecord, hnode, htool, hprompt⟩ := hrow record ho
        have hkept := Cache.record_of_reach hw hreach hrecord
        exact ⟨rfl, record, ms, hkept, hnode, htool, hprompt, hms, ha⟩

theorem isStale_eq_false {n : Node} {changed : Stamp} (h : isStale n (some changed) = .ok false) :
    ∃ made, n.contentUpdated = some made ∧ changed.le made = true := by
  unfold isStale at h
  cases hmade : n.contentUpdated with
  | none => rw [hmade] at h; cases h
  | some made =>
      rw [hmade] at h
      dsimp only at h
      split at h
      · exact ⟨made, rfl, by simpa using h⟩
      · cases h

/-- A result is taken from the cache only if the input did not change after the node was made. -/
theorem Hits.fresh {a : ρ} (h : u.Hits r w q a) (hu : u.Fits .unrecorded) (hw : w.Sound) {path : Path}
    (hpath : u.source = some path) : ∃ w₁ changed made, u.prompt.run w = .ok q.prompt w₁ ∧
      (changedAt path).run w₁ = .ok changed w₁ ∧ q.node.contentUpdated = some made ∧
      changed.le made = true := by
  obtain ⟨hstale, -⟩ := h.record hu hw
  obtain ⟨w₁, w₂, hask, -⟩ := h.obtains
  obtain ⟨w₃, hprompt, htime, -, hs⟩ := ask_eq_ok hask
  rw [inputTime, hpath] at htime
  dsimp only at htime
  rw [← bind_pure_comp] at htime
  obtain ⟨changed, w₄, hchanged, hsome⟩ := bind_eq_ok.mp htime
  obtain rfl := (reader_changedAt path).eq hchanged
  obtain ⟨hsome, -⟩ := EStateM.Result.ok.inj hsome
  rw [hstale, ← hsome] at hs
  obtain ⟨made, hmade, hle⟩ := isStale_eq_false hs
  exact ⟨w₄, changed, made, hprompt, hchanged, hmade, hle⟩

/-! ## Accepted results -/

/-- The unit accepts a result of the model, as there is none in the cache. -/
structure Accepts (u : Work ρ) (r : Runner) (w : Workspace) (q : Query) (a : Accepted ρ) : Prop where
  /-- The unit looks for a result, finds none, and generates one. -/
  generates : ∃ w₁ w₂ w₃ checked attempts, u.ask.run w = .ok q w₁ ∧
    (u.cached r.cache q.node q.stale q.prompt).run w₁ = .ok (none, checked) w₂ ∧
    (u.generate r.endpoint q.prompt checked).run w₂ = .ok (a, attempts) w₃

/-- An accepted result was judged from an answer to the prompt. -/
theorem Accepts.reply {a : Accepted ρ} (h : u.Accepts r w q a) (hu : u.Fits .unrecorded)
    (hw : w.Sound) :
    ∃ calls n, (u.judge n (r.endpoint calls (Call.ofPrompt u.tool u.role q.prompt)).outcome).outcome =
      .ok a := by
  obtain ⟨w₁, w₂, w₃, checked, attempts, hask, hcached, hgenerate⟩ := h.generates
  have hw₁ := ((hu.ask.runs w trivial).ok hw hask).1.sound hw
  have hcache : Safe .any (u.cached r.cache q.node q.stale q.prompt) :=
    .ite (.pure _) ((r.cache.safe_lookup ..).bind fun _ => .pure _)
  have hw₂ := ((hcache.runs w₁ trivial).ok hw₁ hcached).1.sound hw₁
  have hruns :=
    runs_generateFrom (R := .any) trivial u r.endpoint q.prompt attemptBudget checked [] w₂
  exact (hruns.ok hw₂ hgenerate).2

/-- All records that a run stores keep the result that the unit has just accepted. -/
theorem runs_run_records {A : Event → Prop} (hu : u.Fits .unrecorded) (hA : ∀ e, ¬ e.Records → A e)
    (hR : ∀ {q a record}, u.Accepts r w q a → Cache.Stored r.cache.digest q.node.id u.tool.toolId
      q.prompt a.text (u.schema.toJson a.result).members? record → A (.record record)) :
    Runs A w (u.run r) fun _ _ => True := by
  have hkeeps : Regime.unrecorded.Keeps := ⟨fun _ _ _ _ _ => id⟩
  rw [run_eq]
  refine ((hu.ask.runs w trivial).mono hA).and_run.bind fun q w₁ _ _ hask => ?_
  refine (runs_obtain (hA _ id) (fun _ => hA _ id) fun hcached hgenerate hstored => ?_).bind
    fun p w₂ _ _ hp => ?_
  · exact hR ⟨w₁, _, _, _, _, hask.1, hcached, hgenerate⟩ hstored
  · obtain ⟨n, hn⟩ := hp
    exact ((hu.conclude hkeeps q hn).runs w₂ trivial).mono hA

end Work

/-! ## Tools -/

/-- A tool and its model can be read off the identifier. -/
theorem Tool.identifier_inj {t t' : Tool} {m m' : String}
    (h : t.name ++ ":" ++ m = t'.name ++ ":" ++ m') : t = t' ∧ m = m' := by
  have hchars := congrArg String.toList h
  simp only [String.toList_append] at hchars
  cases t <;> cases t' <;> simp [Tool.name] at hchars ⊢ <;> exact String.toList_inj.mp hchars

theorem ToolSelection.resolve_eq_ok {s : ToolSelection} {t : Tool} {c : ToolConfig}
    (h : s.resolve t = .ok c) : c.toolId = t.name ++ ":" ++ c.modelName := by
  unfold resolve resolveName at h
  split at h
  · cases h; rfl
  · cases h

/-! ## Sessions of units -/

/-- A step of a session of units. -/
inductive Act : Type 1 where
  /-- A unit runs, whether this fails or not. -/
  | unit {ρ : Type} (u : Work ρ) (r : Runner)
  /-- Any other operation. -/
  | other (x : Op Unit)
  /-- Files change from outside. -/
  | outside (t : FileTree)

namespace Act

/-- The workspace after a step. -/
def after (w : Workspace) : Act → Workspace
  | unit u r => (u.run r).after w
  | other x => x.after w
  | outside t => { w with files := t }

/-- Records are stored by units only, for tools that were resolved, in a cache with this digest. -/
def Within (digest : String → String) : Act → Prop
  | unit u r => u.Fits .unrecorded ∧ r.cache.digest = digest ∧
      ∃ (tools : ToolSelection) (t : Tool), tools.resolve t = .ok u.tool
  | other x => Safe .unrecorded x
  | outside _ => True

end Act

namespace Workspace

/-- The workspace after a session of units. -/
def acted (acts : List Act) (w : Workspace) : Workspace := acts.foldl Act.after w

theorem acted_append_singleton (acts : List Act) (a : Act) (w : Workspace) :
    w.acted (acts ++ [a]) = a.after (w.acted acts) := by
  rw [acted, List.foldl_append]
  rfl

/-- The record keeps what a unit of the session accepted. -/
inductive Comes (w : Workspace) : List Act → GenerationRecord → Prop
  | intro {before rest : List Act} {ρ : Type} {v : Work ρ} {s : Runner} {q : Work.Query}
      {a : Accepted ρ} {record : GenerationRecord} (ha : v.Accepts s (w.acted before) q a)
      (hr : Cache.Stored s.cache.digest q.node.id v.tool.toolId q.prompt a.text
        (v.schema.toJson a.result).members? record) : Comes w (before ++ .unit v s :: rest) record

variable {digest : String → String} {acts : List Act}

theorem Comes.later {w : Workspace} {record : GenerationRecord} (h : Comes w acts record) (a : Act) :
    Comes w (acts ++ [a]) record := by
  cases h with
  | intro ha hr =>
      rw [List.append_assoc]
      exact .intro ha hr

/-- What a step changes, and the records that it stores. -/
theorem reach_act {a : Act} (ha : a.Within digest) (w₀ : Workspace)
    (hw : (w₀.acted acts).Sound) :
    (∃ t, a = .outside t) ∨ Reach (fun e => ∀ q, e = .record q → Comes w₀ (acts ++ [a]) q)
      (w₀.acted acts) (a.after (w₀.acted acts)) := by
  have quiet (e : Event) (he : ¬ e.Records) (q : GenerationRecord) (hq : e = .record q) :
      Comes w₀ (acts ++ [a]) q := by
    subst hq
    exact absurd trivial he
  cases a with
  | unit u r =>
      have hruns := Work.runs_run_records (r := r) (w := w₀.acted acts) ha.1 quiet
        fun haccepts hstored q hq => by
          cases hq
          exact .intro haccepts hstored
      exact .inr (hruns.after hw)
  | other x => exact .inr (((ha.runs _ trivial).after hw).mono quiet)
  | outside t => exact .inl ⟨t, rfl⟩

theorem sound_acted (hacts : ∀ a ∈ acts, a.Within digest) {w : Workspace} (hw : w.Sound) :
    (w.acted acts).Sound := by
  induction acts using List.reverseRecOn with
  | nil => exact hw
  | append_singleton acts a ih =>
      have hbefore := ih fun b hb => hacts b (List.mem_append_left _ hb)
      rw [acted_append_singleton]
      rcases reach_act (hacts a (by simp)) w hbefore with ⟨t, rfl⟩ | hreach
      · exact ⟨hbefore.wellFormed, hbefore.spent, hbefore.exact⟩
      · exact hreach.sound hbefore

/-- Every record after a session of units keeps what one of them accepted. -/
theorem comes_acted (hacts : ∀ a ∈ acts, a.Within digest) (w : Workspace) {i : String}
    {record : GenerationRecord}
    (hr : Assoc.get? i (w.emptied.acted acts).tables.records = some record) :
    Comes w.emptied acts record := by
  induction acts using List.reverseRecOn generalizing i record with
  | nil => cases hr
  | append_singleton acts a ih =>
      have hbefore (b : Act) (hb : b ∈ acts) : b.Within digest := hacts b (List.mem_append_left _ hb)
      have hkeep {i : String} {record : GenerationRecord}
          (h : Assoc.get? i (w.emptied.acted acts).tables.records = some record) :
          Comes w.emptied (acts ++ [a]) record := (ih hbefore h).later a
      rw [acted_append_singleton] at hr
      rcases reach_act (hacts a (by simp)) w.emptied (sound_acted hbefore w.sound_emptied) with
        ⟨t, rfl⟩ | hreach
      · exact hkeep hr
      · exact Cache.records_reach hreach hkeep hr

/-- A unit of a session accepted the result before, from an answer to the same prompt. -/
inductive AcceptedBefore {ρ : Type} (w : Workspace) (acts : List Act) (u : Work ρ) (t : Tool)
    (q : Work.Query) (a : ρ) : Prop
  | intro {before rest : List Act} {σ : Type} {v : Work σ} {s : Runner} {p : Work.Query}
      {b : Accepted σ} {calls : List Call} {n : Nat} {tools : ToolSelection} {ms : Members}
      (split : acts = before ++ .unit v s :: rest) (accepts : v.Accepts s (w.acted before) p b)
      (reply : (v.judge n
        (s.endpoint calls (Call.ofPrompt v.tool v.role q.prompt)).outcome).outcome = .ok b)
      (prompt : p.prompt = q.prompt) (node : p.node.id = q.node.id)
      (tool : tools.resolve t = .ok v.tool) (model : v.tool.modelName = u.tool.modelName)
      (kept : (v.schema.toJson b.result).members? = some ms)
      (valid : Reply.validate u.schema (.obj ms) = .ok a) : AcceptedBefore w acts u t q a

/-- What a unit takes from the cache was accepted before. -/
theorem acceptedBefore_of_hits (hacts : ∀ a ∈ acts, a.Within digest) {w : Workspace} {ρ : Type}
    {u : Work ρ} {r : Runner} {q : Work.Query} {a : ρ} {tools : ToolSelection} {t : Tool}
    (hu : u.Fits .unrecorded) (ht : tools.resolve t = .ok u.tool)
    (h : u.Hits r (w.emptied.acted acts) q a) : AcceptedBefore w.emptied acts u t q a := by
  obtain ⟨-, record, ms, hrecord, hnode, htool, hprompt, hms, ha⟩ :=
    h.record hu (sound_acted hacts w.sound_emptied)
  cases comes_acted hacts w hrecord with
  | @intro before rest σ v s p b _ haccepts hstored =>
      have hbefore (c : Act) (hc : c ∈ before) : c.Within digest :=
        hacts c (List.mem_append_left _ hc)
      obtain ⟨hv, -, tools', t', hresolve⟩ : (Act.unit v s).Within digest := hacts _ (by simp)
      obtain ⟨calls, n, hreply⟩ := haccepts.reply hv (sound_acted hbefore w.sound_emptied)
      have hid := hstored.tool.symm.trans htool
      rw [ToolSelection.resolve_eq_ok hresolve, ToolSelection.resolve_eq_ok ht] at hid
      obtain ⟨rfl, hmodel⟩ := Tool.identifier_inj hid
      have hp : p.prompt = q.prompt := hstored.prompt.symm.trans hprompt
      exact .intro rfl haccepts (hp ▸ hreply) hp (hstored.node.symm.trans hnode) hresolve hmodel
        (hstored.json.symm.trans hms) ha

end Workspace

namespace Cache

open Request Workspace

/-- Whatever the digest, a lookup gives nothing or what was stored last for exactly its node, its tool
and its prompt.  So what a unit takes from the cache was accepted by a unit before, from an answer to
the same prompt, for the same node, tool and model, and the input has not changed since. -/
theorem sound_under_any_digest (digest : String → String) (w : Workspace) :
    (∀ rs : List Request, (∀ r ∈ rs, r.Digests digest) →
      ∀ (c : Cache) (n : Node) (tool prompt : String),
        ∃ o w', (c.lookup n tool prompt).run (w.emptied.session (rs.map .asked)) = .ok o w' ∧
          ∀ r, o = some r → lastStored rs n.id tool prompt = some (r.content, r.json)) ∧
    ∀ acts : List Act, (∀ a ∈ acts, a.Within digest) → ∀ {ρ : Type} {u : Work ρ} {r : Runner}
      {q : Work.Query} {a : ρ} {tools : ToolSelection} {t : Tool}, u.Fits .unrecorded →
        tools.resolve t = .ok u.tool → u.Hits r (w.emptied.acted acts) q a →
          AcceptedBefore w.emptied acts u t q a ∧
          ∀ path, u.source = some path → ∃ w₁ changed made,
            u.prompt.run (w.emptied.acted acts) = .ok q.prompt w₁ ∧
            (changedAt path).run w₁ = .ok changed w₁ ∧
            q.node.contentUpdated = some made ∧ changed.le made = true := by
  refine ⟨fun rs hrs c n tool prompt => lookup_after_session hrs w c n tool prompt, ?_⟩
  intro acts hacts ρ u r q a tools t hu ht h
  have hw := sound_acted hacts w.sound_emptied
  exact ⟨acceptedBefore_of_hits hacts hu ht h, fun path hpath => h.fresh hu hw hpath⟩

/-! ## A session -/

/-- A unit with a fixed prompt, whose results are applied to nothing. -/
def sampleUnit : Work TechStackResult where
  label := "sample"
  tool := { toolId := "tech-stack:m", modelName := "m" }
  role := ""
  prompt := pure "p"
  node := Graph.getOrCreate none .techStackData "data" none
  schema := TechStackResult.schema
  check _ _ := .ok ()
  steps _ := []
  source := none

/-- A cache where all prompts have the same digest, and an endpoint that always gives an empty
object. -/
def sampleRunner : Runner where
  cache := { limit := 1, digest := fun _ => "" }
  endpoint _ _ := { outcome := .texts ["\x7b\x7d"] }
  concurrency := 1

theorem fits_sampleUnit : sampleUnit.Fits .unrecorded where
  prompt := .pure _
  node := Graph.safe_getOrCreate fun _ _ _ => id
  steps _ := nofun

/-- Where all prompts have the same digest, a lookup finds what was stored for its prompt, and a unit
that runs again takes its result from the cache. -/
theorem sound_under_any_digest_sample :
    (∃ (rs : List Request) (n : Node) (r : GenerationRecord) (w : Workspace),
      (sampleRunner.cache.lookup n "t" "p").run
          (Project.blank.emptied.session (rs.map .asked)) = .ok (some r) w ∧
      lastStored rs n.id "t" "p" = some (r.content, r.json)) ∧
    ∃ q a, sampleUnit.Hits sampleRunner (Project.blank.emptied.acted [.unit sampleUnit sampleRunner]) q a ∧
      AcceptedBefore Project.blank.emptied [.unit sampleUnit sampleRunner] sampleUnit .techStack q a := by
  have hsound := sound_under_any_digest (fun _ => "") Project.blank
  constructor
  · have hok : (Graph.getOrCreate none .project "demo" none).gives Project.blank (fun n _ =>
        (sampleRunner.cache.lookup n "t" "p").gives (Project.blank.emptied.session
          ([.getOrCreate none .project "demo" none,
            .store sampleRunner.cache n "t" "o" "old" none,
            .store sampleRunner.cache n "t" "p" "new" none].map .asked)) fun o _ => o.isSome) = true := by
      decide +kernel
    obtain ⟨n, -, -, hok⟩ := gives_eq_true.mp hok
    obtain ⟨o, w, hlookup, hok⟩ := gives_eq_true.mp hok
    obtain ⟨r, rfl⟩ := Option.isSome_iff_exists.mp hok
    obtain ⟨o', w', hlookup', hlast⟩ := hsound.1 [.getOrCreate none .project "demo" none,
      .store sampleRunner.cache n "t" "o" "old" none,
      .store sampleRunner.cache n "t" "p" "new" none] (by simp [Digests, sampleRunner])
      sampleRunner.cache n "t" "p"
    rw [hlookup] at hlookup'
    cases hlookup'
    exact ⟨_, n, r, w, hlookup, hlast r rfl⟩
  · have hok : (sampleUnit.run sampleRunner).gives
        (Project.blank.emptied.acted [.unit sampleUnit sampleRunner]) (fun report _ => report.cached) =
          true := by decide +kernel
    have hacts : ∀ a ∈ [Act.unit sampleUnit sampleRunner], a.Within fun _ => "" := by
      simp only [List.mem_singleton, forall_eq]
      exact ⟨fits_sampleUnit, rfl, ⟨[("tech-stack", "m")], 120⟩, .techStack, rfl⟩
    obtain ⟨report, w, hrun, hcached⟩ := gives_eq_true.mp hok
    obtain ⟨q, hhits⟩ := Work.hits_of_run hrun hcached
    have htool : ToolSelection.resolve ⟨[("tech-stack", "m")], 120⟩ .techStack =
      .ok sampleUnit.tool := rfl
    exact ⟨q, report.result, hhits, (hsound.2 _ hacts fits_sampleUnit htool hhits).1⟩

end Cache

end IntentBuild
