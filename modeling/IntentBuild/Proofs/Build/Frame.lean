import IntentBuild.Proofs.Build.Stages
import IntentBuild.Proofs.Dependency.Sparing
import IntentBuild.Proofs.Project

/-!
# What the stages leave alone

Of a project whose directories lie side by side, as `Project.setup` makes them, all stages but the
refresh spare the file of the dependencies and the synced map (`DepsFile.builds_sparing`): intent
files and source files have other paths, whatever the results name, and what is deleted with an
intent file is never the manifest.
-/

namespace IntentBuild

open Op

/-! ## Paths -/

namespace FileTree

/-- A path in a directory beside `.intentcode` is not that of the file, even if its last name leads
upwards. -/
theorem key_below_ne (t : FileTree) (P : Path) {a : String} {ns : List String} (ha : a ≠ "..")
    (hi : a ≠ ".intentcode") (h : ∀ n ∈ ns.dropLast, n ≠ "..") :
    t.key (P.below (a :: ns)) ≠ t.key (DepsFile.fileIn P) := by
  rw [key_fileIn]
  rcases ns.eq_nil_or_concat with rfl | ⟨init, n, rfl⟩
  · rw [t.key_below P (by simpa using ha)]
    simp
  · rw [List.concat_eq_append, ← List.cons_append, key_below_concat]
    · split
      · rw [List.dropLast_append_of_ne_nil (List.cons_ne_nil a init)]
        cases init <;> simp [hi]
      · simp [hi]
    · rw [List.concat_eq_append, List.dropLast_concat] at h
      exact List.forall_mem_cons.mpr ⟨ha, h⟩

end FileTree

/-- The file of the tech stack is not the file. -/
theorem DepsFile.key_summary_ne (t : FileTree) (P : Path) :
    t.key ((P.child ".intentcode").child "tech-stack.json") ≠ t.key (fileIn P) := by
  rw [Path.child_name P (by decide), Path.child_name _ (by decide),
    Path.below_below, t.key_below P (by decide), t.key_fileIn]
  simp

/-- A path that a result may name is relative, and no part of it leads upwards. -/
theorem Lowering.relative_of_checkEntry {e : IntentEntry} (he : checkEntry e = .ok ()) :
    (Path.ofText e.relativePath).anchor = .none ∧
      ∀ n ∈ (Path.ofText e.relativePath).names, Graph.isHollow n = false := by
  unfold checkEntry at he
  dsimp only at he
  split at he
  · cases he
  · split at he
    · cases he
    · rename_i h
      simpa [Path.isAbsolute] using h

/-- A path that a result may name ends in the name of a Markdown file. -/
theorem Lowering.concat_of_checkEntry {e : IntentEntry} (he : checkEntry e = .ok ()) :
    ∃ init n, (Path.ofText e.relativePath).names = init ++ [n] ∧ n ≠ "graph.json" := by
  have hsuffix : (Path.ofText e.relativePath).suffix = Stage.markdown := by
    unfold checkEntry at he
    dsimp only at he
    split at he
    · cases he
    · split at he
      · cases he
      · split at he
        · cases he
        · rename_i h
          simpa using h
  generalize Path.ofText e.relativePath = p at hsuffix ⊢
  obtain ⟨anchor, names⟩ := p
  rcases names.eq_nil_or_concat with rfl | ⟨init, n, rfl⟩
  · exact absurd hsuffix (by cases anchor <;> decide +kernel)
  · refine ⟨init, n, List.concat_eq_append, ?_⟩
    rintro rfl
    rw [Path.suffix, Path.name, List.concat_eq_append, List.getLastD_concat] at hsuffix
    exact absurd hsuffix (by decide +kernel)

/-- No path that a result may name is the file. -/
theorem Lowering.key_entry_ne (t : FileTree) (P : Path) {e : IntentEntry}
    (he : checkEntry e = .ok ()) :
    t.key ((P.child "intent").child e.relativePath) ≠ t.key (DepsFile.fileIn P) := by
  obtain ⟨habsolute, hhollow⟩ := relative_of_checkEntry he
  rw [Path.child_eq habsolute, Path.child_name P (by decide), Path.below_below]
  refine t.key_below_ne P (by decide) (by decide) fun n hn hup => ?_
  have hn := hhollow n (List.dropLast_subset _ hn)
  rw [hup] at hn
  cases hn

/-- No source file is the file. -/
theorem Graph.Below.key_source_ne (t : FileTree) (P : Path) {s : String} (hs : Graph.Below s) :
    t.key ((P.child "src").child (Path.withoutIntentSuffix s)) ≠ t.key (DepsFile.fileIn P) := by
  obtain ⟨hanchor, hup⟩ := Path.ofText_withoutIntentSuffix hs
  rw [Path.child_eq hanchor, Path.child_name P (by decide), Path.below_below]
  exact t.key_below_ne P (by decide) (by decide) hup

/-! ## Stages of a project -/

namespace DepsFile

/-- Neither the manifest nor the project is deleted with a node of another type. -/
theorem runs_cascadeDelete_type (hp : p.IsProject) {n : Node} (hh : Handle p w) (hn : Handle n w)
    (ht : n.type ≠ .project ∧ n.type ≠ .deps) :
    Runs (Falls p i) w (Graph.cascadeDelete n true) fun _ _ => True := by
  intro hw
  refine (runs_cascadeDelete_falls hp.parent hh true fun hm => ?_) hw
  have htype := congrArg NodeKey.type (hn.key hm)
  refine ⟨fun hid => ?_, fun hk => ?_⟩
  · -- The node would be that of the project, which has another type.
    have hmid := hw.wellFormed.nodes.owned hm
    have hproject := hh.key (hid ▸ hmid ▸ hm)
    exact ht.1 (htype.symm.trans ((congrArg NodeKey.type hproject).trans hp.type))
  · exact ht.2 (htype.symm.trans (congrArg NodeKey.type hk))

/-- All stages but the refresh spare the file and the synced map. -/
theorem builds_sparing {c : BuildContext} (hc : c.project.Placed P)
    (hp : c.project.node.IsProject) (i : String) : (sparing P c.project.node i).Builds c where
  toDeclares := declares_sparing ..
  calls := ⟨trivial, trivial⟩
  record _ := ⟨trivial, trivial⟩
  dropRecord _ := ⟨trivial, trivial⟩
  keep old new _ h _ := ⟨trivial, fun _ => by rw [h]⟩
  text old new _ h := ⟨trivial, fun _ => by rw [h]⟩
  node n ht := ⟨trivial, fun hk => absurd (congrArg NodeKey.type hk) ht⟩
  content old new ht := ⟨trivial, fun hk => absurd (congrArg NodeKey.type hk) ht⟩
  forget hI hn ht := by
    refine (runs_cascadeDelete_type hp hI.1 hn ?_).mono fun _ he => he.spares
    rcases ht with ht | ht <;> rw [ht] <;> decide
  summary hP _ := by
    cases hc.node.symm.trans hP
    exact ⟨fun t => key_summary_ne t P, trivial⟩
  entry he _ hP := by
    cases hc.intent.symm.trans hP
    exact ⟨fun _ => ⟨fun t => Lowering.key_entry_ne t P he, trivial⟩,
      fun t => Lowering.key_entry_ne t P he, trivial⟩
  source hP hs _ := by
    cases hc.source.symm.trans hP
    exact ⟨fun t => hs.key_source_ne t P, trivial⟩

end DepsFile

end IntentBuild
