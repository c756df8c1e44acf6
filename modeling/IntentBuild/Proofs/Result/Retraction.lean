import IntentBuild.Build.Compilation
import IntentBuild.Build.Lowering
import IntentBuild.Proofs.Json.Tidy
import IntentBuild.Proofs.Schema.Reading
import IntentBuild.Proofs.Text.Trim

/-!
# Validating twice

A result that was validated is written in one way, however its payload was spelled.  What is written is
valid again, it gives the same text again, and the check of the stage does not change its mind
(`retracts`).  For all but a tree with numbers that are not finite, the result itself is the same again.
-/

namespace IntentBuild

open Json.Read

/-! ## Diagnostics -/

theorem Diagnostic.stable_read : Stable Diagnostic.read Diagnostic.toJson := by
  intro v d h
  obtain ⟨ms, -, h⟩ := record_eq_ok.mp h
  obtain ⟨_, h₃, last, hlast, rfl⟩ := Reading.seq_eq_ok.mp h
  obtain ⟨_, h₂, first, hfirst, rfl⟩ := Reading.seq_eq_ok.mp h₃
  obtain ⟨_, h₁, line, hline, rfl⟩ := Reading.seq_eq_ok.mp h₂
  obtain ⟨text, -, rfl⟩ := Reading.map_eq_ok.mp h₁
  have hline := stable_optionalInteger.withDefault2 rfl hline
  have hfirst := stable_optionalInteger.withDefault2 rfl hfirst
  have hlast := stable_optionalInteger.withDefault2 rfl hlast
  simp [Diagnostic.read, Diagnostic.toJson, record, required, required2, optionalField,
    optionalField2, withDefault, withDefault2, fieldValue?, Assoc.get?, Json.Read.text, hline, hfirst,
    hlast]

/-- The diagnostics of a result stand before its other members. -/
theorem Diagnostics.readFrom_toMembers {ms : Members} {d : Diagnostics}
    (h : Diagnostics.readFrom ms = .ok d) (more : Members) :
    Diagnostics.readFrom (d.toMembers ++ more) = .ok d := by
  obtain ⟨_, h₁, errors, herrors, rfl⟩ := Reading.seq_eq_ok.mp h
  obtain ⟨warnings, hwarnings, rfl⟩ := Reading.map_eq_ok.mp h₁
  have hlist := stable_list Diagnostic.stable_read
  have hwarnings := hlist.withDefault2 rfl hwarnings
  have herrors := hlist.withDefault2 rfl herrors
  simp [Diagnostics.readFrom, Diagnostics.toMembers, withDefault, withDefault2, fieldValue?,
    Assoc.get?, hwarnings, herrors]

theorem Diagnostics.get?_toMembers {k : String} (hk : k ∉ ["warnings", "errors"]) (d : Diagnostics)
    (more : Members) : Assoc.get? k (d.toMembers ++ more) = Assoc.get? k more := by
  simp only [List.mem_cons, List.not_mem_nil, or_false, not_or] at hk
  simp [Diagnostics.toMembers, Assoc.get?, Ne.symm hk.1, Ne.symm hk.2]

/-! ## The results of the stages -/

theorem TechStackResult.stable_readDependencies :
    Stable TechStackResult.readDependencies Json.ofTexts := by
  intro v deps h
  obtain ⟨_, hmap, hrule⟩ := Reading.andThen_eq_ok.mp h
  obtain ⟨hbad, rfl⟩ := Reading.rule_eq_ok.mp hrule
  have hmap := stable_map stable_text hmap
  rw [TechStackResult.readDependencies]
  exact Reading.andThen_eq_ok.mpr ⟨_, hmap, hrule⟩

theorem TechStackResult.stable_read : Stable TechStackResult.read TechStackResult.toJson := by
  intro v r h
  obtain ⟨ms, -, h⟩ := record_eq_ok.mp h
  obtain ⟨_, h₂, deps, hdeps, rfl⟩ := Reading.seq_eq_ok.mp h
  obtain ⟨_, h₁, extensions, hext, rfl⟩ := Reading.seq_eq_ok.mp h₂
  obtain ⟨diagnostics, hd, rfl⟩ := Reading.map_eq_ok.mp h₁
  have hdeps := TechStackResult.stable_readDependencies.withDefault2 rfl hdeps
  have hext := (stable_map stable_text).withDefault2 rfl hext
  rw [← Json.ofTexts] at hext
  simp [TechStackResult.read, TechStackResult.toJson, record, withDefault, withDefault2, fieldValue?,
    Diagnostics.readFrom_toMembers hd, Diagnostics.get?_toMembers, Assoc.get?, hext, hdeps]

theorem IntentChange.ofText?_text (c : IntentChange) : IntentChange.ofText? c.text = some c := by
  cases c <;> rfl

theorem IntentEntry.stable_readPath : Stable IntentEntry.readPath .str := by
  intro v path h
  obtain ⟨s, -, hrule⟩ := Reading.andThen_eq_ok.mp h
  obtain ⟨hink, rfl⟩ := Reading.rule_eq_ok.mp hrule
  refine Reading.andThen_eq_ok.mpr ⟨_, rfl, Reading.rule_eq_ok.mpr ⟨Text.hasInk_trim hink, ?_⟩⟩
  exact Text.trim_trim s

theorem IntentEntry.stable_read : Stable IntentEntry.read IntentEntry.toJson := by
  intro v e h
  obtain ⟨ms, -, h⟩ := record_eq_ok.mp h
  obtain ⟨e', h₄, hcheck⟩ := Reading.andThen_eq_ok.mp h
  obtain ⟨-, rfl⟩ := Reading.rule_eq_ok.mp hcheck
  obtain ⟨_, h₃, change, hchange, rfl⟩ := Reading.seq_eq_ok.mp h₄
  obtain ⟨_, h₂, content, hcontent, rfl⟩ := Reading.seq_eq_ok.mp h₃
  obtain ⟨_, h₁, path, hpath, rfl⟩ := Reading.seq_eq_ok.mp h₂
  obtain ⟨number, -, rfl⟩ := Reading.map_eq_ok.mp h₁
  have hpath := IntentEntry.stable_readPath.required2 hpath
  have hcontent := stable_optionalText.withDefault2 rfl hcontent
  have hchange := (stable_word IntentChange.ofText?_text).withDefault2 rfl hchange
  simp [IntentEntry.read, IntentEntry.toJson, record, required2, optionalField, withDefault,
    withDefault2, fieldValue?, Assoc.get?, integer, hpath, hcontent, hchange, Reading.andThen, hcheck]

theorem LoweringResult.stable_read : Stable LoweringResult.read LoweringResult.toJson := by
  intro v r h
  obtain ⟨ms, -, h⟩ := record_eq_ok.mp h
  obtain ⟨_, h₁, files, hfiles, rfl⟩ := Reading.seq_eq_ok.mp h
  obtain ⟨diagnostics, hd, rfl⟩ := Reading.map_eq_ok.mp h₁
  have hfiles := (stable_list IntentEntry.stable_read).withDefault2 rfl hfiles
  simp [LoweringResult.read, LoweringResult.toJson, record, withDefault2, fieldValue?,
    Diagnostics.readFrom_toMembers hd, Diagnostics.get?_toMembers, Assoc.get?, hfiles]

theorem Assumption.stable_read : Stable Assumption.read Assumption.toJson := by
  intro v a h
  obtain ⟨ms, -, h⟩ := record_eq_ok.mp h
  obtain ⟨_, h₁, level, hlevel, rfl⟩ := Reading.seq_eq_ok.mp h
  obtain ⟨text, -, rfl⟩ := Reading.map_eq_ok.mp h₁
  have hlevel := stable_optionalText.withDefault2 rfl hlevel
  simp [Assumption.read, Assumption.toJson, record, required, required2, optionalField, withDefault,
    withDefault2, fieldValue?, Assoc.get?, Json.Read.text, hlevel]

theorem DeltaOperation.ofText?_text (o : DeltaOperation) : DeltaOperation.ofText? o.text = some o := by
  cases o <;> rfl

theorem DependencyDelta.check_eq {d d' : DependencyDelta} (h : d.check = .ok d') : d' = d := by
  obtain ⟨_, h₁, h₂⟩ := Reading.andThen_eq_ok.mp h
  exact (Reading.rule_eq_ok.mp h₂).2.symm.trans (Reading.rule_eq_ok.mp h₁).2.symm

theorem DependencyDelta.stable_read : Stable DependencyDelta.read DependencyDelta.toJson := by
  intro v d h
  obtain ⟨ms, -, h⟩ := record_eq_ok.mp h
  obtain ⟨d', h₃, hcheck⟩ := Reading.andThen_eq_ok.mp h
  cases DependencyDelta.check_eq hcheck
  obtain ⟨_, h₂, version, hversion, rfl⟩ := Reading.seq_eq_ok.mp h₃
  obtain ⟨_, h₁, name, hname, rfl⟩ := Reading.seq_eq_ok.mp h₂
  obtain ⟨operation, hoperation, rfl⟩ := Reading.map_eq_ok.mp h₁
  have hversion := stable_optionalText.withDefault2 rfl hversion
  have hname := stable_nonempty.required2 hname
  have hoperation := (stable_word DeltaOperation.ofText?_text).required2 hoperation
  simp [DependencyDelta.read, DependencyDelta.toJson, record, required, required2, optionalField2,
    withDefault2, fieldValue?, Assoc.get?, hversion, hname, hoperation, Reading.andThen, hcheck]

theorem CompileResult.stable_read : Stable CompileResult.read CompileResult.toJson := by
  intro v r h
  obtain ⟨ms, -, h⟩ := record_eq_ok.mp h
  obtain ⟨_, h₄, deltas, hdeltas, rfl⟩ := Reading.seq_eq_ok.mp h
  obtain ⟨_, h₃, source, hsource, rfl⟩ := Reading.seq_eq_ok.mp h₄
  obtain ⟨_, h₂, corrected, hcorrected, rfl⟩ := Reading.seq_eq_ok.mp h₃
  obtain ⟨_, h₁, assumptions, hassumptions, rfl⟩ := Reading.seq_eq_ok.mp h₂
  obtain ⟨diagnostics, hd, rfl⟩ := Reading.map_eq_ok.mp h₁
  have hassumptions := (stable_list Assumption.stable_read).withDefault2 rfl hassumptions
  have hcorrected := stable_optionalText.withDefault2 rfl hcorrected
  have hsource := stable_optionalText.withDefault2 rfl hsource
  have hdeltas := (stable_list DependencyDelta.stable_read).withDefault2 rfl hdeltas
  simp [CompileResult.read, CompileResult.toJson, CompileResult.toMembers, record, optionalField2,
    withDefault, withDefault2, fieldValue?, Diagnostics.readFrom_toMembers hd,
    Diagnostics.get?_toMembers, Assoc.get?, hassumptions, hcorrected, hsource, hdeltas]

/-! ## Trees -/

theorem IndexResult.readTree_finite {v tree : Json} (h : IndexResult.readTree v = .ok tree) :
    IndexResult.readTree tree.finite = .ok tree.finite := by
  unfold IndexResult.readTree at h
  split at h
  · cases h
    rfl
  · cases h
    rfl
  · cases h

/-- The tree of a result is written with `null` for every number that is not finite, and read as it was
written. -/
theorem IndexResult.read_toJson {v : Json} {r : IndexResult} (h : IndexResult.read v = .ok r) :
    IndexResult.read r.toJson = .ok { r with tree := r.tree.finite } := by
  obtain ⟨ms, -, h⟩ := record_eq_ok.mp h
  obtain ⟨_, h₁, tree, htree, rfl⟩ := Reading.seq_eq_ok.mp h
  obtain ⟨diagnostics, hd, rfl⟩ := Reading.map_eq_ok.mp h₁
  have htree : IndexResult.readTree tree.finite = .ok tree.finite := by
    unfold required2 at htree
    split at htree
    · exact IndexResult.readTree_finite (Reading.under_eq_ok.mp htree)
    · cases htree
  simp [IndexResult.read, IndexResult.toJson, record, required2, fieldValue?,
    Diagnostics.readFrom_toMembers hd, Diagnostics.get?_toMembers, Assoc.get?, htree]

theorem IndexResult.toJson_finite (r : IndexResult) :
    IndexResult.toJson { r with tree := r.tree.finite } = r.toJson := by
  rw [IndexResult.toJson, IndexResult.toJson, Json.finite_finite]

/-! ## The schemas of the stages -/

namespace ResultSchema

variable {ρ : Type}

theorem validate_eq_ok {S : ResultSchema ρ} {ms : Members} {r : ρ} :
    Reply.validate S (.obj ms) = .ok r ↔ S.read (.obj ms) = .ok r := by
  simp only [Reply.validate]
  cases h : S.read (.obj ms) <;> simp [Reading.validated]

/-- What is written for a result that was validated is valid again and is written the same again, and
where the check of a stage accepts the first result it accepts the second. -/
def Retracts (S : ResultSchema ρ) (check : ρ → Except StageRejection Unit) : Prop :=
  ∀ (ms : Members) (r : ρ), Reply.validate S (.obj ms) = .ok r →
    ∃ r', Reply.validate S (S.toJson r) = .ok r' ∧ S.toJson r' = S.toJson r ∧
      (check r = .ok () → check r' = .ok ())

/-- A schema that reads back what it writes. -/
theorem retracts_of_stable {S : ResultSchema ρ} (h : Stable S.read S.toJson)
    (hobject : ∀ r, ∃ ms, S.toJson r = .obj ms) (check : ρ → Except StageRejection Unit) :
    S.Retracts check := by
  intro ms r hr
  obtain ⟨ms', hms'⟩ := hobject r
  have hread := h (validate_eq_ok.mp hr)
  rw [hms'] at hread
  exact ⟨r, by rw [hms', validate_eq_ok, hread], rfl, fun hcheck => hcheck⟩

/-- Validation is a retraction for the results of all four stages. -/
theorem retracts :
    (TechStackResult.schema.Retracts fun _ => .ok ()) ∧
      LoweringResult.schema.Retracts Lowering.check ∧
      (IndexResult.schema.Retracts fun _ => .ok ()) ∧
      CompileResult.schema.Retracts Compilation.check := by
  refine ⟨?techStack, ?lowering, ?index, ?compilation⟩
  case techStack => exact retracts_of_stable TechStackResult.stable_read (fun r => ⟨_, rfl⟩) _
  case lowering => exact retracts_of_stable LoweringResult.stable_read (fun r => ⟨_, rfl⟩) _
  case index =>
    intro ms r hr
    have hread : IndexResult.read (.obj ms) = .ok r := validate_eq_ok.mp hr
    exact ⟨{ r with tree := r.tree.finite }, validate_eq_ok.mpr (IndexResult.read_toJson hread),
      IndexResult.toJson_finite r, fun hcheck => hcheck⟩
  case compilation => exact retracts_of_stable CompileResult.stable_read (fun r => ⟨_, rfl⟩) _

end ResultSchema

end IntentBuild
