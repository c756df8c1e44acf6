import IntentBuild.Proofs.Build.Specified
import IntentBuild.Proofs.Cache.Hits
import IntentBuild.Proofs.Conversation.Extraction
import IntentBuild.Proofs.Dependency.Package
import IntentBuild.Proofs.Json.Faithful
import IntentBuild.Proofs.Operation.Batch

/-!
# The tech stack in the prompts

The tech stack is resolved right before the specifications are lowered.  Its unit writes the result to a
file, sorted and as JSON, and the prompts of the specifications show what they read there.  So they show the
result that the unit of the specification on disk has just accepted or taken from the cache
(`Lowering.renders_resolved`).

Without a specification of the tech stack the stage does nothing, and the prompts show what the file holds,
whatever it was written for.
-/

namespace IntentBuild

open Op
open Assoc (keys Proper)

/-! ## Objects that are read -/

namespace Json.Read

variable {α : Type} {read : Json → Reading α} {ms : Members} {v : Json}

theorem keys_entries {m : List (String × α)} (h : entries read ms = .ok m) : keys m = keys ms := by
  induction ms generalizing m with
  | nil =>
      cases h
      rfl
  | cons e ms ih =>
      obtain ⟨_, hcons, rest, hrest, rfl⟩ := Reading.seq_eq_ok.mp h
      obtain ⟨entry, hentry, rfl⟩ := Reading.map_eq_ok.mp hcons
      obtain ⟨a, -, rfl⟩ := Reading.map_eq_ok.mp hentry
      exact congrArg (e.1 :: ·) (ih hrest)

/-- The map of an object with every key once has every key once. -/
theorem proper_map {m : List (String × α)} (h : map read v = .ok m) (hv : v.Tidy) : Proper m := by
  unfold map at h
  split at h
  · rw [Proper, keys_entries h]
    exact hv.1
  · cases h

/-- A field is read from a member of the record, or has its default. -/
theorem withDefault2_eq_ok {key other : String} {a d : α} (h : withDefault2 ms key other d read = .ok a)
    (hms : TidyMembers ms) : a = d ∨ ∃ v : Json, v.Tidy ∧ read v = .ok a := by
  unfold withDefault2 at h
  split at h
  · rename_i v hv
    refine .inr ⟨v, ?_, Reading.under_eq_ok.mp h⟩
    unfold fieldValue? at hv
    split at hv
    · cases hv
      exact tidyMembers_iff.mp hms _ (Assoc.mem_of_get? ‹_›)
    · exact tidyMembers_iff.mp hms _ (Assoc.mem_of_get? hv)
  · cases h
    exact .inl rfl

end Json.Read

/-! ## Results that were read from tidy values -/

/-- Every record holds a tidy value. -/
def Workspace.TidyRecords (w : Workspace) : Prop :=
  ∀ {i r ms}, Assoc.get? i w.tables.records = some r → r.json = some ms → (Json.obj ms).Tidy

namespace Work

variable {ρ : Type} {u : Work ρ} {r : Runner} {w w' : Workspace}

/-- An object in a reply is tidy. -/
theorem tidy_of_extract {text : String} {ms : Members} (h : Reply.extract text = .ok ms) :
    (Json.obj ms).Tidy := by
  have hobject {cs : List Char} (h : Reply.object? cs = some ms) : (Json.obj ms).Tidy := by
    refine Json.tidy_parse? (s := String.ofList cs) ?_
    rw [Json.parse?, String.toList_ofList]
    exact Reply.object?_eq_some.mp h
  unfold Reply.extract at h
  dsimp only at h
  split at h
  · cases h
  · split at h
    · cases h
      exact hobject ‹_›
    · split at h
      · rename_i hfind
        cases h
        obtain ⟨cs, -, hcs⟩ := List.exists_of_findSome?_eq_some hfind
        exact hobject hcs
      · cases h

/-- An accepted result was read from a tidy value. -/
theorem tidy_of_judge {checked : Nat} {o : Outcome} {a : Accepted ρ}
    (h : (u.judge checked o).outcome = .ok a) :
    ∃ ms, (Json.obj ms).Tidy ∧ Reply.validate u.schema (.obj ms) = .ok a.result := by
  obtain ⟨_, ms, hms, ha, -⟩ := read_of_judge h
  exact ⟨ms, tidy_of_extract hms, ha⟩

/-- The result of a unit was read from a tidy value, whether it comes from the cache or from the model. -/
theorem tidy_of_run (hu : u.Fits .unrecorded) (hw : w.Sound) (hr : w.TidyRecords) {report : UnitReport ρ}
    (h : (u.run r).run w = .ok report w') :
    ∃ ms, (Json.obj ms).Tidy ∧ Reply.validate u.schema (.obj ms) = .ok report.result := by
  cases hcached : report.cached with
  | true =>
      obtain ⟨q, hhits⟩ := hits_of_run h hcached
      obtain ⟨-, record, ms, hrecord, -, -, -, hms, ha⟩ := hhits.record hu hw
      exact ⟨ms, hr hrecord hms, ha⟩
  | false =>
      rw [run_eq] at h
      obtain ⟨q, w₁, hask, h₁⟩ := bind_eq_ok.mp h
      obtain ⟨⟨a, attempts⟩, w₂, hobtain, h₂⟩ := bind_eq_ok.mp h₁
      obtain ⟨_, w₃, -, h₃⟩ := bind_eq_ok.mp h₂
      obtain ⟨_, w₄, -, h₄⟩ := bind_eq_ok.mp h₃
      obtain ⟨_, w₅, -, h₅⟩ := bind_eq_ok.mp h₄
      cases h₅
      obtain ⟨⟨o, checked⟩, w₆, hcache, hrest⟩ := bind_eq_ok.mp hobtain
      cases o with
      | some b =>
          cases hrest
          cases hcached
      | none =>
          obtain ⟨⟨b, n⟩, w₇, hgenerate, h₆⟩ := bind_eq_ok.mp hrest
          obtain ⟨_, w₈, -, h₇⟩ := bind_eq_ok.mp h₆
          cases h₇
          obtain ⟨calls, m, hjudged⟩ :=
            Accepts.reply ⟨w₁, w₆, w₇, checked, _, hask, hcache, hgenerate⟩ hu hw
          exact tidy_of_judge hjudged

end Work

namespace TechStack

variable {c : BuildContext} {P : Path} {file : Node} {r : TechStackResult} {w w' : Workspace}

/-- The maps of a result that was read from a tidy value have every name once. -/
theorem proper_of_read {v : Json} (h : TechStackResult.read v = .ok r) (hv : v.Tidy) :
    Proper r.extensions ∧ Proper r.dependencies := by
  obtain ⟨ms, rfl, h⟩ := Json.Read.record_eq_ok.mp h
  obtain ⟨_, h₁, deps, hdeps, rfl⟩ := Reading.seq_eq_ok.mp h
  obtain ⟨_, h₂, extensions, hextensions, rfl⟩ := Reading.seq_eq_ok.mp h₁
  obtain ⟨diagnostics, -, rfl⟩ := Reading.map_eq_ok.mp h₂
  constructor
  · rcases Json.Read.withDefault2_eq_ok hextensions hv.2 with rfl | ⟨v', hv', hread⟩
    · exact Assoc.proper_nil
    · exact Json.Read.proper_map hread hv'
  · rcases Json.Read.withDefault2_eq_ok hdeps hv.2 with rfl | ⟨v', hv', hread⟩
    · exact Assoc.proper_nil
    · obtain ⟨_, hmap, hrule⟩ := Reading.andThen_eq_ok.mp hread
      obtain ⟨-, rfl⟩ := Reading.rule_eq_ok.mp hrule
      exact Json.Read.proper_map hmap hv'

/-! ## The file of a result -/

/-- The file of the result of a project in a directory. -/
def summaryIn (P : Path) : Path := (P.child ".intentcode").child "tech-stack.json"

theorem summaryPath_run (hP : c.project.node.pathEntry = .path P) (w : Workspace) :
    (summaryPath c.project.node).run w = .ok (summaryIn P) w :=
  bind_ok (DepsFile.directory_run hP w)

/-- The file holds an object, or is not there. -/
def Shows (P : Path) (stack : Option Members) (w : Workspace) : Prop :=
  match w.files.bytesAt? (w.files.key (summaryIn P)) with
  | none => stack = none
  | some bytes => ∃ text ms, decode bytes = .ok text ∧ Json.parse? text = some (.obj ms) ∧ stack = some ms

theorem Shows.unique {stack stack' : Option Members} (h : Shows P stack w) (h' : Shows P stack' w) :
    stack = stack' := by
  unfold Shows at h h'
  split at h
  · rename_i hnone
    rw [hnone] at h'
    exact h.trans h'.symm
  · rename_i bytes hbytes
    rw [hbytes] at h'
    obtain ⟨text, ms, hdecode, hparse, rfl⟩ := h
    obtain ⟨text', ms', hdecode', hparse', rfl⟩ := h'
    cases hdecode.symm.trans hdecode'
    cases hparse.symm.trans hparse'
    rfl

/-- While the file is neither written nor removed, it holds the same. -/
theorem shows_iff_of_reach {stack : Option Members}
    (h : Reach (Event.Clears w.files.workingDirectory (w.files.key (summaryIn P))) w w') :
    Shows P stack w' ↔ Shows P stack w := by
  rw [Shows, Shows, h.key_eq, FileTree.bytesAt?_eq_map, h.fileAt?_eq (w.summary_clearing P),
    ← FileTree.bytesAt?_eq_map]

/-- What the file holds is what is read for the prompts. -/
theorem current_eq_ok_iff {stack : Option Members} (hP : c.project.node.pathEntry = .path P) :
    (current c).run w = .ok stack w ↔ Shows P stack w := by
  have hfile : w.files.isFile (summaryIn P) = true ↔
      ∃ bytes, w.files.bytesAt? (w.files.key (summaryIn P)) = some bytes := FileTree.isFile_iff
  rw [current, bind_ok (summaryPath_run hP w), bind_ok (isFile_run _ w), Shows]
  cases hbytes : w.files.bytesAt? (w.files.key (summaryIn P)) with
  | none =>
      rw [hbytes] at hfile
      have hfile : w.files.isFile (summaryIn P) = false := by simpa using hfile
      rw [hfile]
      constructor
      · intro h
        cases h
        rfl
      · rintro rfl
        rfl
  | some bytes =>
      rw [hfile.mpr ⟨bytes, hbytes⟩, if_pos rfl]
      constructor
      · intro h
        obtain ⟨ms, w₁, hread, h⟩ := bind_eq_ok.mp h
        cases h
        obtain ⟨text, -, htext, hparse⟩ := Package.readObject_eq_ok hread
        obtain ⟨-, bytes', hbytes', hdecode⟩ := readText_eq_ok htext
        cases hbytes.symm.trans hbytes'
        exact ⟨text, ms, hdecode, hparse, rfl⟩
      · rintro ⟨text, ms, hdecode, hparse, rfl⟩
        rw [bind_ok (Package.readObject_run (readText_run hbytes hdecode) hparse)]
        rfl

/-! ## Applying a result -/

/-- The members of a result in order. -/
def sortedSummary (r : TechStackResult) : Members :=
  Sorting.sort (fun a b => Text.charsLe a.1 b.1) (Json.sortKeysMembers Text.charsLe (summary r))

theorem plain_summary (hr : Proper r.extensions ∧ Proper r.dependencies) : (Json.obj (summary r)).Plain :=
  ⟨by simp [Proper, summary], Json.plain_ofTexts hr.1, Json.plain_ofTexts hr.2, trivial⟩

/-- A result that was applied is what the file holds, with its members in order. -/
theorem shows_of_apply (hP : c.project.node.pathEntry = .path P)
    (hr : Proper r.extensions ∧ Proper r.dependencies) (hw : w.Sound)
    (h : (apply c file r).run w = .ok ⟨⟩ w') : Shows P (some (sortedSummary r)) w' := by
  obtain ⟨path, w₀, hpath, h⟩ := bind_eq_ok.mp h
  cases (summaryPath_run hP w).symm.trans hpath
  obtain ⟨b, w₁, hwrite, h⟩ := bind_eq_ok.mp h
  have hreach := ((Safe.runs (safe_writeIfChanged (R := .any) trivial) w trivial).ok hw hwrite).1
  have hplain : (Json.obj (sortedSummary r)).Plain := Json.Plain.sortKeys Text.charsLe (plain_summary hr)
  have htidy : (Json.obj (sortedSummary r)).Tidy := Json.Lossless.tidy hplain.lossless
  have hshown : Shows P (some (sortedSummary r)) w₁ := by
    have htext : (readText (summaryIn P)).run w₁ =
        .ok ((Json.obj (sortedSummary r)).render .pretty ++ "\n") w₁ := by
      rw [← Json.unifyLineBreaks_render .pretty htidy]
      exact reads_of_written hwrite
    obtain ⟨-, bytes, hbytes, hdecode⟩ := readText_eq_ok htext
    rw [Shows, hbytes]
    exact ⟨_, _, hdecode, Json.parse?_render .pretty htidy, rfl⟩
  have rest : Safe (.only fun e => ¬ e.Writes) (do
      let _ ← Graph.upsertDerived file .techStackData dataName r.toJson.members? .keep
      let _ ← Manifest.replaceDeclared c.project.node file r.dependencies
      for u in ExtensionSpec.missing c.extensions r.extensions do notify (.unmet u)) :=
    (Graph.safe_upsertDerived (fun _ _ _ _ => id) fun _ _ _ _ => id).bind fun _ =>
      (Manifest.safe_replaceDeclared (Regime.declares_only fun _ => id) ..).bind fun _ =>
        .bind (.forIn fun _ _ => .once (safe_notify _)) fun _ => .pure _
  exact (shows_iff_of_reach (((rest.runs w₁ trivial).ok (hreach.sound hw) h).1.mono fun _ hn =>
    Event.clears_of_not_writes hn)).mpr hshown

/-- A unit that succeeds leaves its result in the file. -/
theorem shows_of_run (hP : c.project.node.pathEntry = .path P) (hw : w.Sound) (ht : w.TidyRecords)
    {tool : ToolConfig} {path : Path} {report : UnitReport TechStackResult}
    (h : ((work c tool path file).run c.runner).run w = .ok report w') :
    Shows P (some (sortedSummary report.result)) w' := by
  obtain ⟨ms, htidy, hvalid⟩ :=
    Work.tidy_of_run (fits_work ((Regime.crafts_unrecorded c).resolves file) ..) hw ht h
  have hread : TechStackResult.read (.obj ms) = .ok report.result := by
    unfold Reply.validate at hvalid
    dsimp only at hvalid
    split at hvalid
    · cases hvalid
      exact Reading.validated_eq_ok.mp ‹_›
    · cases hvalid
  have hfits : (work c tool path file).Fits .any := fits_work ((Regime.builds_any c).carries.resolves file) ..
  obtain ⟨w₁, w₂, ⟨hprepared, ⟨n, hchecked⟩, happly, hstamped, -⟩⟩ :=
    Work.run_eq_ok (Work.Built.techStack (c := c) tool path file).generative hfits hw h
  have hw₁ := hprepared.sound hw
  rw [Work.apply_eq_step (x := apply c file report.result) rfl] at happly
  have hshown := shows_of_apply hP (proper_of_read hread htidy) hw₁ happly
  exact (shows_iff_of_reach (hstamped.mono fun _ he => he.clears _ _)).mpr hshown

end TechStack

/-! ## The prompts -/

namespace Lowering

variable {c : BuildContext} {P R : Path} {stack : Option Members} {us : List (Work LoweringResult)}
  {w w₁ w₂ : Workspace}

/-- The prompts of the units show a tech stack. -/
def Renders (c : BuildContext) (stack : Option Members) (us : List (Work LoweringResult)) : Prop :=
  ∀ u ∈ us, ∃ relative text,
    u.prompt = pure (Prompt.lowering relative text (projects c) stack c.extensions)

/-- A prompt shows the members of an object in order. -/
theorem Renders.sorted {r : TechStackResult} (h : Renders c (some (TechStack.sortedSummary r)) us) :
    Renders c (some (TechStack.summary r)) us := by
  intro u hu
  obtain ⟨relative, text, hprompt⟩ := h u hu
  refine ⟨relative, text, hprompt.trans ?_⟩
  have hblock : Prompt.jsonBlock (.obj (TechStack.sortedSummary r)) =
      Prompt.jsonBlock (.obj (TechStack.summary r)) :=
    congrArg (Json.render .pretty)
      (Json.sortKeys_sortKeys Text.isOrder_charsLe (.obj (TechStack.summary r)))
  simp only [Prompt.lowering, hblock]

/-- The prompts show what the file of the tech stack holds. -/
theorem renders_works (hP : c.project.node.pathEntry = .path P) (hw : w.Sound)
    (h : (works c).run w = .ok us w₂) : ∃ stack, TechStack.Shows P stack w ∧ Renders c stack us := by
  obtain ⟨_, w₀, hfiles, h₁⟩ := bind_eq_ok.mp h
  obtain rfl := (Stage.reader_markdownFiles _).eq hfiles
  obtain ⟨_, w₁, hprune, h₂⟩ := bind_eq_ok.mp h₁
  have hprunes : Safe (.only fun e => ¬ e.Writes) (Stage.pruneMissing c c.project.specs Graph.specKind) :=
    Stage.safe_pruneMissing (Regime.declares_only fun _ => id) (Regime.forgets_only (fun _ => id) _) _
  have hpruned := ((hprunes.runs w₀ trivial).ok hw hprune).1
  obtain ⟨stack, w₂, hcurrent, h₃⟩ := bind_eq_ok.mp h₂
  obtain rfl := (TechStack.reader_current c).eq hcurrent
  refine ⟨stack, (TechStack.shows_iff_of_reach (hpruned.mono fun _ hn =>
    Event.clears_of_not_writes hn)).mp ((TechStack.current_eq_ok_iff hP).mp hcurrent), fun u hu => ?_⟩
  obtain ⟨tool, w₃, -, h₄⟩ := bind_eq_ok.mp h₃
  obtain ⟨path, -, w₄, w₅, hwork⟩ := mem_of_mapM h₄ u hu
  rw [work_eq] at hwork
  obtain ⟨_, _, -, hwork⟩ := bind_eq_ok.mp hwork
  obtain ⟨relative, _, -, hwork⟩ := bind_eq_ok.mp hwork
  obtain ⟨text, _, -, hwork⟩ := bind_eq_ok.mp hwork
  cases hwork
  exact ⟨relative, text, rfl⟩

/-- Where a specification of the tech stack is on disk, the prompts show the result that its unit has just
accepted or taken from the cache.  Where there is none, they show what the file of the tech stack held. -/
theorem renders_resolved (hc : c.project.Placed R) (hready : Build.Ready c w) (ht : w.TidyRecords)
    {report : StageReport} (htech : (TechStack.run c).run w = .ok report w₁)
    (h : (works c).run w₁ = .ok us w₂) :
    (∀ names ∈ w₁.files.filesBelow (R.child "specs") Stage.markdown,
      names.getLastD "" = Stage.techStackFile → ∃ tool file w₀ unit,
        (Graph.placeOf c.project.specs ((R.child "specs").below names).text Graph.specKind).run w =
          .ok file w₀ ∧
        ((TechStack.work c tool ((R.child "specs").below names) file).run c.runner).run w₀ = .ok unit w₁ ∧
        Renders c (some (TechStack.summary unit.result)) us) ∧
    ((∀ names ∈ w₁.files.filesBelow (R.child "specs") Stage.markdown,
      names.getLastD "" ≠ Stage.techStackFile) →
        ∃ stack, (TechStack.current c).run w = .ok stack w ∧ Renders c stack us) := by
  have hfiles := Build.filesBelow_specs_runStage (s := .techStack) hc hready htech
  have hw₁ := (@Build.Ready.stage _ _ _ hready .techStack _ htech).sound
  obtain ⟨stack, hshows, hrenders⟩ := renders_works hc.node hw₁ h
  rw [hfiles]
  constructor
  · intro names hnames hlast
    obtain ⟨tool, file, w₀, unit, hplace, hrun⟩ :=
      TechStack.run_of_file hc.specs hready.proper.files htech hnames hlast
    refine ⟨tool, file, w₀, unit, hplace, hrun, ?_⟩
    have hne : (R.child "specs").names ≠ [] := R.child_ne_nil (by decide)
    have hrow := Stage.row_of_mem_filesBelow hready.proper.files hnames
    obtain ⟨hplaced, -⟩ := (Graph.runs_placeOf (hrow.hasParts hc.specs hne)).ok hready.sound hplace
    have hquiet : Reach (fun e => ¬ e.Records) w w₀ := hplaced.mono fun e he => by
      cases e <;> first | exact he.elim | exact id
    have ht₀ : w₀.TidyRecords := fun hr => ht (Cache.record_of_reach hready.sound hquiet hr)
    have hshown := TechStack.shows_of_run hc.node (hplaced.sound hready.sound) ht₀ hrun
    obtain rfl := hshows.unique hshown
    exact hrenders.sorted
  · intro hnone
    obtain rfl := TechStack.run_of_none hc.specs hready.proper.files htech hnone
    exact ⟨stack, (TechStack.current_eq_ok_iff hc.node).mpr hshows, hrenders⟩

/-- Services whose model asks for a library. -/
def librarian : Services where
  settings := {}
  tools := { byTool := [("tech-stack", "m"), ("specs-to-intent", "m")], timeout := 120 }
  endpoint _ _ := ⟨.texts ["\x7b\"dependencyDeltas\": \x7b\"x\": \"1.0.0\"\x7d\x7d"], false⟩

/-- A new project with a specification of its tech stack and another one. -/
@[irreducible]
def shelved : Workspace :=
  (writeIfChanged (.ofText "/work/demo/specs/tech-stack.md") "t\n").after
    ((writeIfChanged (.ofText "/work/demo/specs/a.md") "a\n").after Project.sample)

/-- The project is in place. -/
theorem found_shelved : ∃ p : Project, p.Found "demo" shelved ∧
    p.Placed (.ofText "/work/demo") ∧ shelved.Sound ∧ shelved.Proper := by
  obtain ⟨p, hfound, hplaced⟩ := Project.found_sample
  obtain ⟨hw, ht, hfound⟩ := Build.found_written hfound Project.sound_sample Project.proper_sample
    "/work/demo/specs/a.md" "a\n"
  obtain ⟨hw, ht, hfound⟩ := Build.found_written hfound hw ht "/work/demo/specs/tech-stack.md" "t\n"
  unfold shelved
  exact ⟨p, hfound, hplaced, hw, ht⟩

/-- The prompt of the other specification shows the library that the model asks for. -/
theorem renders_resolved_shelved : ∃ c w w₁ w₂ report us tool path file w₀,
    ∃ unit : UnitReport TechStackResult,
      (TechStack.run c).run w = .ok report w₁ ∧ (works c).run w₁ = .ok us w₂ ∧ us.length = 1 ∧
        ((TechStack.work c tool path file).run c.runner).run w₀ = .ok unit w₁ ∧
        Renders c (some (TechStack.summary unit.result)) us := by
  obtain ⟨p, hfound, hplaced, hw, hp⟩ := found_shelved
  have htest : (Build.start librarian "demo").gives shelved (fun c w => w.tables.records.isEmpty &&
      (TechStack.run c).gives w fun _ w₁ => (works c).gives w₁ fun us _ => us.length == 1 &&
        (w₁.files.filesBelow ((Path.ofText "/work/demo").child "specs") Stage.markdown).contains
          [Stage.techStackFile]) = true := by
    decide +kernel
  obtain ⟨c, w, hstart, htest⟩ := gives_eq_true.mp htest
  obtain ⟨hempty, htest⟩ := Bool.and_eq_true_iff.mp htest
  obtain ⟨report, w₁, htech, htest⟩ := gives_eq_true.mp htest
  obtain ⟨us, w₂, hworks, htest⟩ := gives_eq_true.mp htest
  obtain ⟨hlength, hmem⟩ := Bool.and_eq_true_iff.mp htest
  obtain ⟨hfound', hready⟩ := Build.ready_of_start hw hp hstart
  obtain rfl := hfound.unique hfound'
  have ht : w.TidyRecords := fun hr => by
    rw [List.isEmpty_iff.mp hempty] at hr
    cases hr
  obtain ⟨tool, file, w₀, unit, -, hrun, hrenders⟩ :=
    (renders_resolved hplaced hready ht htech hworks).1 _ (List.contains_iff_mem.mp hmem) rfl
  exact ⟨c, w, w₁, w₂, report, us, tool, _, file, w₀, unit, htech, hworks, beq_iff_eq.mp hlength,
    hrun, hrenders⟩

end Lowering

end IntentBuild
