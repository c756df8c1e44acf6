import IntentBuild.Proofs.Build.Course
import IntentBuild.Proofs.Build.Frame
import IntentBuild.Proofs.Conversation.Order
import IntentBuild.Proofs.Dependency.Sync

/-!
# Shape and freshness of builds

While a build runs, the file of the dependencies agrees with the synced map: every stage but the
refresh leaves both alone, and the refresh brings both in step with the manifest.  So a build whose
last refresh reports no change has compiled with exactly the dependencies that the file, the synced
map, the manifest and the files of the project hold at its end (`shaped_and_fresh`).
-/

namespace IntentBuild

open Op
open Assoc (Proper)

namespace DepsFile

variable {P : Path} {p : Node} {s : Sync} {D : Dependencies} {w w' : Workspace}

/-- After a synchronisation the file is there and agrees with the synced map. -/
theorem Synced.agrees (h : Synced P p w s w') (ha : Agrees P p w) (hd : Distinct p w) :
    Agrees P p w' ∧ Distinct p w' ∧ ∃ bytes, bytes? P w' = some bytes := by
  obtain ⟨b, hb⟩ := h.reconciled
  have hproper := hb.proper.1
  have distinct : Distinct p w' := by
    intro m hm
    cases hc : s.changed with
    | true =>
        rw [h.entry hc, Manifest.textsOf_ofTexts] at hm
        cases hm
        exact hproper
    | false => exact hd m (h.kept hc ▸ hm)
  obtain ⟨m, hm, hsame⟩ := h.map
  by_cases hwrite : s.changed = true ∨ bytes? P w = none
  · obtain ⟨bytes, hbytes, hrender⟩ := h.written hwrite
    refine ⟨fun bytes' hb' => ⟨m, hm, ?_⟩, distinct, bytes, hbytes⟩
    rw [hbytes, Option.some.injEq] at hb'
    exact hb' ▸ holds_of_render hrender hproper (distinct m hm) hsame
  · rw [not_or, Bool.not_eq_true] at hwrite
    have hleft := h.left hwrite.1 hwrite.2
    obtain ⟨bytes, hbytes⟩ := Option.ne_none_iff_exists'.mp hwrite.2
    refine ⟨fun bytes' hb' => ?_, distinct, bytes, hleft.trans hbytes⟩
    rw [h.kept hwrite.1]
    exact ha bytes' (hleft ▸ hb')

/-- The file, the synced map, the manifest and what the files declare hold the same map. -/
structure Settled (p : Node) (D : Dependencies) (w : Workspace) : Prop where
  /-- The file spells an object that holds exactly the map. -/
  file : ∃ q found, (path p).run w = .ok q w ∧ (readFile q).run w = .ok found w ∧
    matchesFile found D = true
  /-- The synced map. -/
  synced : ∃ m, (synced p).run w = .ok m w ∧ Assoc.same m D = true
  /-- The map of the manifest. -/
  manifest : ∃ m, (Manifest.deps p).run w = .ok m w ∧ Assoc.same m D = true
  /-- The union of what the files declare. -/
  declared : (Manifest.declared p).run w = .ok D w

theorem node_run {b : Node} (hb : w.tables.findNode? (Manifest.address p w.graph.instanceId) = some b)
    (hs : w.graph.depth = 0 → w.graph.unsaved = false) : (Manifest.node p).run w = .ok b w :=
  Graph.getOrCreate_old hb hs

theorem readFile_run {q : Path} {bytes : ByteArray} {text : String} {found : Members}
    (hb : w.files.bytesAt? (w.files.key q) = some bytes) (hd : decode bytes = .ok text)
    (hp : Json.parse? text = some (.obj found)) : (readFile q).run w = .ok found w := by
  have hfiles : files.run w = .ok w.files w := rfl
  have hr : w.files.readBytes q = .ok bytes := FileTree.readBytes_eq_ok.mpr hb
  rw [readFile, bind_ok hfiles, hr, bind_ok (lift_ok ..), hd, bind_ok (lift_ok ..), objectOf, hp]
  rfl

/-- A synchronisation settles everything. -/
theorem Synced.settled (h : Synced P p w s w') (hP : p.pathEntry = .path P) (ha : Agrees P p w)
    (hd : Distinct p w) : Settled p s.deps w' := by
  obtain ⟨ha', hd', bytes, hbytes⟩ := h.agrees ha hd
  obtain ⟨b, hb⟩ := h.reconciled
  have hnode := node_run hb.found h.saved
  obtain ⟨m, hm, hsame⟩ := h.map
  obtain ⟨m', hm', text, found, hdecode, hparse, hmatch⟩ := ha' bytes hbytes
  rw [hm, Except.ok.injEq] at hm'
  subst hm'
  refine ⟨⟨fileIn P, found, path_run hP w', readFile_run hbytes hdecode hparse, ?_⟩, ⟨m, ?_, hsame⟩,
    ?_, ?_⟩
  · unfold matchesFile at hmatch ⊢
    split at hmatch
    · rename_i ms
      cases htexts : Json.texts? ms with
      | none => rw [htexts] at hmatch; cases hmatch
      | some ts =>
          rw [htexts] at hmatch
          exact Assoc.same_trans hmatch hsame
    · cases hmatch
  · rw [synced, bind_ok hnode, Manifest.textsAt_eq, ← Manifest.syncedEntry_of_found hb.found, hm]
    rfl
  · obtain ⟨m₁, hm₁, hsame₁⟩ := hb.held
    refine ⟨m₁, ?_, hsame₁⟩
    rw [Manifest.deps, bind_ok hnode, hm₁]
    rfl
  · rw [Manifest.declared, bind_ok hnode]
    exact hb.union

end DepsFile

/-! ## Stages -/

namespace Build

open DepsFile

variable {c : BuildContext} {P : Path} {stage : Stage} {r : StageReport} {rs : List StageRun}
  {w w' : Workspace}

/-- What a build keeps from stage to stage. -/
structure Keeping (c : BuildContext) (P : Path) (w : Workspace) : Prop where
  /-- The graph is in order. -/
  sound : w.Sound
  /-- The project is known. -/
  handle : Handle c.project.node w
  /-- The file agrees with the synced map. -/
  agrees : Agrees P c.project.node w
  /-- The synced map has every name once. -/
  distinct : Distinct c.project.node w

section

variable (hc : c.project.Placed P) (hp : c.project.node.IsProject)
include hc hp

/-- Every stage but the refresh spares the file and the synced map. -/
theorem spared_of_runStage (hs : stage ≠ .refresh) (hk : Keeping c P w)
    (h : (runStage c stage).run w = .ok r w') :
    Spared P c.project.node w w' ∧ Keeping c P w' := by
  have hsafe := safe_runStage (builds_sparing hc hp w.graph.instanceId).carries hs
  have hreach := ((hsafe.runs w ⟨hk.handle, rfl⟩).ok hk.sound h).1
  have hspared := Spared.of_reach hk.sound hreach
  refine ⟨hspared, hreach.sound hk.sound, hk.handle.reach hreach, ?_, ?_⟩
  · exact hspared.agrees hk.agrees
  · exact hspared.distinct hk.distinct

omit hp in
/-- A refresh synchronises, and its report says whether the dependencies changed. -/
theorem synced_of_refresh (hk : Keeping c P w) (h : (runStage c .refresh).run w = .ok r w') :
    (∃ s, Synced P c.project.node w s w' ∧ r.depsUpdated = s.changed) ∧ Keeping c P w' := by
  have hsync : Safe .any (sync c.project.node) :=
    safe_sync Regime.declares_any (fun _ _ _ _ => trivial) fun _ _ => ⟨trivial, trivial⟩
  have hsafe := safe_stage (Regime.builds_any c).carries hsync .refresh
  have hreach := ((hsafe.runs w trivial).ok hk.sound h).1
  obtain ⟨s, w₁, hsync, h₁⟩ := bind_eq_ok.mp h
  cases h₁
  have hsynced := sync_eq_ok hc.node hk.sound hk.handle hsync
  obtain ⟨ha, hd, -⟩ := hsynced.agrees hk.agrees hk.distinct
  exact ⟨⟨s, hsynced, rfl⟩, hreach.sound hk.sound, hk.handle.reach hreach, ha, hd⟩

theorem keeping_of_runStage (hk : Keeping c P w) (h : (runStage c stage).run w = .ok r w') :
    Keeping c P w' := by
  by_cases hs : stage = .refresh
  · subst hs
    exact (synced_of_refresh hc hk h).2
  · exact (spared_of_runStage hc hp hs hk h).2

theorem Chained.keeping (h : Chained c w rs w') (hk : Keeping c P w) : Keeping c P w' := by
  induction h with
  | nil => exact hk
  | cons hr _ ih => exact ih (keeping_of_runStage hc hp hk hr)

/-- The units of a compilation list the synced map that stands before it. -/
theorem lists_of_compilation (hk : Keeping c P w)
    (h : (runStage c .compilation).run w = .ok r w') :
    ∃ us w₁ S, (Compilation.works c).run w = .ok us w₁ ∧
      Manifest.textsOf (Manifest.syncedEntry c.project.node w) = .ok S ∧
      ∀ u ∈ us, Compilation.Lists c S u := by
  obtain ⟨us, w₁, hworks, -⟩ := bind_eq_ok.mp h
  have hR := builds_sparing hc hp w.graph.instanceId
  have hruns := Compilation.runs_works hR.toDeclares hR.shows_intent ⟨hk.handle, rfl⟩
  obtain ⟨-, shared, w₂, w₃, hreach, hsynced, hunits⟩ := hruns.ok hk.sound hworks
  have hspared := Spared.of_reach hk.sound hreach
  obtain ⟨htexts, -⟩ :=
    synced_eq_ok P (hreach.sound hk.sound) (hk.handle.reach hreach) hsynced
  rw [hspared.entry] at htexts
  refine ⟨us, w₁, shared.deps, hworks, htexts, fun u hu => ?_⟩
  obtain ⟨f, text, file, -, rfl⟩ := hunits u hu
  exact ⟨_, _, _, _, rfl⟩

end

/-! ## Prompts -/

/-- A prompt lists a map just as it lists one that is the same. -/
theorem lists_of_same {m D : Dependencies} (hm : Proper m) (hD : Proper D)
    (h : Assoc.same m D = true) {u : Work CompileResult} (hu : Compilation.Lists c m u) :
    Compilation.Lists c D u := by
  obtain ⟨relative, target, text, indexed, hprompt⟩ := hu
  refine ⟨relative, target, text, indexed, hprompt.trans ?_⟩
  rw [Prompt.compile, Prompt.compile, Prompt.dependencyLines_eq hm hD ((Assoc.same_iff hm hD).mp h)]

/-! ## The last segment -/

/-- The compilation of a segment without changes lists the dependencies of its end. -/
theorem fresh_of_segment (hc : c.project.Placed P) (hp : c.project.node.IsProject)
    (hk : Keeping c P w) (h : Chained c w rs w') (hs : Course.stages rs = Plan.defaultStages)
    (hq : ∀ r ∈ rs, r.changed = false) :
    ∃ D, Settled c.project.node D w' ∧ ∀ r ∈ rs, r.stage = .compilation →
      ∃ us w₁, (Compilation.works c).run r.before = .ok us w₁ ∧
        ∀ u ∈ us, Compilation.Lists c D u := by
  obtain ⟨front, rest, rfl, hfront, hrest⟩ : ∃ front rest, rs = front ++ rest ∧
      Course.stages front = [.techStack, .lowering, .refresh, .indexing] ∧
      Course.stages rest = [.compilation, .refresh] := by
    refine ⟨rs.take 4, rs.drop 4, (List.take_append_drop 4 rs).symm, ?_, ?_⟩
    · rw [Course.stages, List.map_take, ← Course.stages, hs]
      rfl
    · rw [Course.stages, List.map_drop, ← Course.stages, hs]
      rfl
  obtain ⟨w₁, h₁, h₂⟩ := h.append
  have hk₁ := h₁.keeping hc hp hk
  obtain ⟨r₁, w₂, rest, rfl, hcompile, h₃, hrest⟩ := h₂.first hrest
  obtain ⟨r₂, w₃, rest, rfl, hrefresh, h₄, hrest⟩ := h₃.first hrest
  obtain rfl := List.map_eq_nil_iff.mp hrest
  cases h₄
  obtain ⟨hspared, hk₂⟩ := spared_of_runStage hc hp (by decide) hk₁ hcompile
  obtain ⟨⟨s, hsynced, hchanged⟩, -⟩ := synced_of_refresh hc hk₂ hrefresh
  obtain ⟨us, w₄, S, hworks, hS, hlists⟩ := lists_of_compilation hc hp hk₁ hcompile
  have hunchanged : s.changed = false := by
    rw [← hchanged]
    exact hq ⟨.refresh, w₂, .ok r₂ w'⟩ (by simp)
  obtain ⟨m, hm, hsame⟩ := hsynced.map
  rw [hsynced.kept hunchanged, hspared.entry, hS, Except.ok.injEq] at hm
  subst hm
  obtain ⟨b, hb⟩ := hsynced.reconciled
  refine ⟨s.deps, hsynced.settled hc.node hk₂.agrees hk₂.distinct, ?_⟩
  intro run hrun hstage
  rcases List.mem_append.mp hrun with hrun | hrun
  · have hmem : run.stage ∈ Course.stages front := List.mem_map_of_mem hrun
    rw [hfront, hstage] at hmem
    exact absurd hmem (by decide)
  · rcases List.mem_cons.mp hrun with rfl | hrun
    · refine ⟨us, w₄, hworks, fun u hu => ?_⟩
      exact lists_of_same (hk₁.distinct S hS) hb.proper.1 hsame (hlists u hu)
    · rw [List.mem_singleton.mp hrun] at hstage
      cases hstage

/-! ## Builds -/

/-- A build starts with a project that is found, and with a file that agrees with the synced
map. -/
theorem start_eq_ok {s : Services} {name : String} (hw : w.Sound)
    (h : (start s name).run w = .ok c w') :
    c.project.Found name w ∧
      ∀ P, c.project.Placed P → Distinct c.project.node w → Keeping c P w' := by
  obtain ⟨project, w₁, hrequire, h₁⟩ := bind_eq_ok.mp h
  obtain ⟨rfl, hfound⟩ := Project.require_eq_ok hrequire
  have hprepare : (prepare s project).run w₁ = .ok c w' := by
    split at h₁
    · cases h₁
    · exact h₁
  obtain ⟨_, w₂, hverify, h₂⟩ := bind_eq_ok.mp hprepare
  obtain ⟨extensions, w₃, hinstalled, h₃⟩ := bind_eq_ok.mp h₂
  obtain ⟨runner, w₄, hrunner, h₄⟩ := bind_eq_ok.mp h₃
  cases h₄
  refine ⟨hfound, fun P hP hd => ?_⟩
  have hhandle : Handle project.node w₁ := .of_node? hw (hfound.stored hw)
  have hsafe := safe_prepare (declares_sparing P project.node w₁.graph.instanceId) s project
  have hreach := ((hsafe.runs w₁ ⟨hhandle, rfl⟩).ok hw hprepare).1
  have hspared := Spared.of_reach hw hreach
  have hagrees := verify_eq_ok hP.node hw hhandle hverify
  exact ⟨hreach.sound hw, hhandle.reach hreach, hspared.agrees hagrees, hspared.distinct hd⟩

end Build

/-- The project lies where `Project.setup` puts it, and its synced map has every name once. -/
structure Project.Regular (p : Project) (w : Workspace) : Prop where
  /-- The directories lie side by side. -/
  placed : ∃ P, p.Placed P
  /-- The synced map has every name once. -/
  distinct : DepsFile.Distinct p.node w

/-- The manifest of a new project has no synced map. -/
theorem Project.syncedEntry_of_setup {p : Project} {name : String} {path : Path} {w w' : Workspace}
    (hw : w.Sound)
    (hnew : w.tables.findNode? ⟨none, w.graph.instanceId, .project, name⟩ = none)
    (h : (setup name path).run w = .ok p w') : Manifest.syncedEntry p.node w' = none := by
  obtain ⟨-, -, hbears⟩ := setup_eq_ok hw hnew h
  have hsafe : Safe .any (setup name path) := safe_setup (fun _ _ => trivial) (fun _ => trivial) ..
  have hw' := ((hsafe.runs w trivial).ok hw h).1.sound hw
  refine Option.eq_none_iff_forall_ne_some.mpr fun v hv => ?_
  obtain ⟨b, hb, hkey, -⟩ := (Manifest.syncedEntry_eq_some hw').mp hv
  have htype : b.type ∈ rootTypes := hbears hb (congrArg NodeKey.parent hkey)
  rw [show b.type = .deps from congrArg NodeKey.type hkey] at htype
  exact absurd htype (by decide)

namespace Build

open DepsFile

/-- A build goes through its course, whose stages come in segments, and only so many.  A build that
completes ends with a whole default sequence without a change, and has compiled with the
dependencies of its end. -/
theorem shaped_and_fresh (s : Services) (name : String) {w : Workspace} (hw : w.Sound)
    (hp : ∀ p : Project, p.Found name w → p.Regular w) :
    ∃ front last, Course.Split (course s name .default w).runs front last ∧
      (∀ {c w₀}, (start s name).run w = .ok c w₀ → (run s name .default).run w =
        (course s name .default w).outcome (BuildSummary.ofPlan c.project.node.name)) ∧
      (course s name .default w).plan.replans = front.length ∧
      (0 ≤ s.settings.maxReplans → (front.length : Int) ≤ s.settings.maxReplans ∧
        ((course s name .default w).runs.length : Int) ≤ 6 * (s.settings.maxReplans + 1)) ∧
      ∀ {summary w'}, (run s name .default).run w = .ok summary w' →
        summary.replans = front.length ∧
        (Course.stages last = Plan.defaultStages ∧ ∀ r ∈ last, r.changed = false) ∧
        ∃ c w₀ D, (start s name).run w = .ok c w₀ ∧ Settled c.project.node D w' ∧
          ∀ r ∈ last, r.stage = .compilation →
            ∃ us w₁, (Compilation.works c).run r.before = .ok us w₁ ∧
              ∀ u ∈ us, Compilation.Lists c D u := by
  obtain ⟨front, last, h⟩ := shaped_course s name w
  have hreplans : (course s name .default w).plan.replans = front.length := by
    simpa using h.replans
  refine ⟨front, last, h.split, fun hstart => by rw [run_eq_course, hstart], hreplans,
    fun hlimit => ?_, fun {summary w'} hrun => ?_⟩
  · have hle : front.length ≤ s.settings.maxReplans.toNat :=
      hreplans ▸ h.limited (Nat.zero_le _)
    have hlen : (course s name .default w).runs.length ≤ 6 * (front.length + 1) := h.split.length_le
    omega
  · rw [run_eq_course] at hrun
    cases hstart : (start s name).run w with
    | error e w₀ => rw [hstart] at hrun; cases hrun
    | ok c w₀ =>
        rw [hstart] at hrun
        dsimp only at hrun
        obtain ⟨hfound, hkeep⟩ := start_eq_ok hw hstart
        obtain ⟨⟨P, hP⟩, hd⟩ := hp c.project hfound
        have hcourse : course s name .default w =
            follow s.settings c (s.settings.recursionLimit - 1).toNat .default w₀ := by
          rw [course, hstart]
        unfold Course.outcome at hrun
        cases hend : (course s name .default w).ending with
        | error e w₁ => rw [hend] at hrun; cases hrun
        | ok u w₁ =>
            rw [hend] at hrun
            cases hrun
            obtain ⟨hlast, hquiet⟩ := h.settled hend
            refine ⟨hreplans, ⟨hlast, hquiet⟩, c, w₀, ?_⟩
            have hchain := chained_follow (hcourse ▸ hend)
            rw [← hcourse] at hchain
            have hsplit : (course s name .default w).runs = front.flatten ++ last := h.split.eq
            rw [hsplit] at hchain
            obtain ⟨w₂, hbefore, hsegment⟩ := hchain.append
            have hproject := hfound.isProject hw
            have hk := hbefore.keeping hP hproject (hkeep P hP hd)
            obtain ⟨D, hD⟩ := fresh_of_segment hP hproject hk hsegment hlast hquiet
            exact ⟨D, rfl, hD⟩

/-- Services whose endpoint gives no answer. -/
def silent : Services where
  settings := {}
  tools := { byTool := [], timeout := 120 }
  endpoint := .unreachable

/-- Services whose model gives every unit the same answer: an empty tree, and a source. -/
def compiling : Services where
  settings := {}
  tools := { byTool := [("specs-to-intent", "m"), ("indexer", "m"), ("compiler", "m")], timeout := 120 }
  endpoint _ _ := ⟨.texts ["\x7b\"astTree\":\x7b\x7d,\"targetSource\":\"[]\"\x7d"], false⟩

/-- A new project gets an intent file that declares a dependency. -/
def declaring : Op Unit := do
  let p ← Project.setup "demo" (.ofText "/work/demo")
  let _ ← writeIfChanged (.ofText "/work/demo/intent/f.ts.md") "f\n"
  let file ← Graph.placeOf p.intent "/work/demo/intent/f.ts.md" Graph.intentKind
  let _ ← Manifest.applyDeltas p.node file [⟨.add, "left-pad", some "1.0.0"⟩]

theorem safe_declaring : Safe .any declaring := by
  refine (Project.safe_setup (fun _ _ => trivial) (fun _ => trivial) ..).bind fun p => ?_
  refine (safe_writeIfChanged trivial).bind fun _ => ?_
  refine (Graph.safe_placeOf fun _ _ _ => trivial).bind fun file => ?_
  exact (Manifest.safe_applyDeltas Regime.declares_any ..).bind fun _ => .pure _

/-- The workspace with this project, of which nothing was synchronised yet. -/
@[irreducible]
def declared : Workspace := Project.spelling "f.ts.md" (declaring.after Project.blank)

theorem sound_declared : declared.Sound := by
  unfold declared
  rw [Project.spelling_eq]
  exact ((safe_declaring.runs _ trivial).after Project.sound_blank).sound Project.sound_blank

/-- The project lies in its directory. -/
theorem regular_declared : ∀ p : Project, p.Found "demo" declared → p.Regular declared := by
  have htest : Project.inPlace declared (fun p =>
      (Manifest.syncedEntry p.node declared).isNone) = true := by decide +kernel
  obtain ⟨q, hq, hplaced, hnone⟩ := Project.found_of_inPlace htest
  intro p hp
  obtain rfl := hq.unique hp
  refine ⟨⟨_, hplaced⟩, fun m hm => ?_⟩
  rw [Option.isNone_iff_eq_none.mp hnone] at hm
  cases hm
  exact Assoc.proper_nil

/-- The dependency is new to the manifest, so the build plans anew once.  It completes, and its last
segment compiles the intent file with the dependency. -/
theorem shaped_and_fresh_sample : ∃ front last c w₀ summary w',
    Course.Split (course compiling "demo" .default declared).runs front last ∧ front.length = 1 ∧
      (start compiling "demo").run declared = .ok c w₀ ∧
      (run compiling "demo" .default).run declared = .ok summary w' ∧
      Course.stages last = Plan.defaultStages ∧
      Settled c.project.node [("left-pad", "1.0.0")] w' ∧
      ∃ r ∈ last, r.stage = .compilation ∧ ∃ us w₁, (Compilation.works c).run r.before = .ok us w₁ ∧
        us ≠ [] ∧ ∀ u ∈ us, Compilation.Lists c [("left-pad", "1.0.0")] u := by
  have htest : (start compiling "demo").gives declared (fun c _ =>
      (run compiling "demo" .default).gives declared (fun summary w' => summary.replans == 1 &&
        (Manifest.declared c.project.node).gives w' fun D _ => D == [("left-pad", "1.0.0")]) &&
      (course compiling "demo" .default declared).runs.all fun r => r.stage != .compilation ||
        (Compilation.works c).gives r.before fun us _ => !us.isEmpty) = true := by decide +kernel
  obtain ⟨c, w₀, hstart, htest⟩ := gives_eq_true.mp htest
  rw [Bool.and_eq_true, List.all_eq_true] at htest
  obtain ⟨summary, w', hrun, hleft⟩ := gives_eq_true.mp htest.1
  rw [Bool.and_eq_true, beq_iff_eq] at hleft
  obtain ⟨D', w₁, hdeclared, hD⟩ := gives_eq_true.mp hleft.2
  obtain ⟨front, last, hsplit, -, -, -, hend⟩ :=
    shaped_and_fresh compiling "demo" sound_declared regular_declared
  obtain ⟨hreplans, ⟨hlast, -⟩, c', w₀', D, hstart', hsettled, hlists⟩ := hend hrun
  cases hstart.symm.trans hstart'
  cases hdeclared.symm.trans hsettled.declared
  rw [beq_iff_eq] at hD
  subst hD
  have hcompilation : Stage.compilation ∈ Course.stages last := by
    rw [hlast]
    decide
  obtain ⟨r, hr, hstage⟩ := List.mem_map.mp hcompilation
  obtain ⟨us, w₂, hworks, hall⟩ := hlists r hr hstage
  have hmem : r ∈ (course compiling "demo" .default declared).runs := by
    rw [hsplit.eq]
    exact List.mem_append_right _ hr
  have hcompiles := htest.2 r hmem
  rw [hstage, show (Stage.compilation != Stage.compilation) = false from rfl, Bool.false_or] at hcompiles
  obtain ⟨us', w₃, hworks', hne⟩ := gives_eq_true.mp hcompiles
  cases hworks.symm.trans hworks'
  refine ⟨front, last, c, w₀, summary, w', hsplit, hreplans.symm.trans hleft.1, hstart, hrun, hlast,
    hsettled, r, hr, hstage, us, w₂, hworks, ?_, hall⟩
  simpa using hne

end Build

end IntentBuild
