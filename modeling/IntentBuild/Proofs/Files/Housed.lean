import IntentBuild.Proofs.Files.Path
import IntentBuild.Proofs.Files.Tree

/-!
# Entries stand in directories

In a tree that is in order a directory stands at every proper start of a row of names where something
stands (`FileTree.Housed`).  Making directories, placing files and removing files keep a tree so.  There
the directory of a file is made without a change (`FileTree.makeDirs_parent`), and a file that is there
can be written (`FileTree.write_of_isFile`).
-/

namespace IntentBuild

/-- The path ends in a name that can be that of a file. -/
structure Path.EndsInName (p : Path) : Prop where
  /-- There is a name. -/
  nonempty : p.name ≠ ""
  /-- The name does not lead upwards. -/
  stays : p.name ≠ ".."

namespace FileTree

variable {t t' : FileTree} {p : Path} {k : List String}

/-- Whatever the tree has stands in directories. -/
def Housed (t : FileTree) : Prop :=
  ∀ k, (t.entryAt k).isSome → ∀ k', k' <+: k → k' ≠ k → t.entryAt k' = some .dir

/-- A proper start of a row ends before the last name. -/
theorem prefix_dropLast {k k' : List String} (h : k' <+: k) (hne : k' ≠ k) : k' <+: k.dropLast := by
  obtain ⟨tail, rfl⟩ := h
  have htail : tail ≠ [] := by
    rintro rfl
    exact hne (List.append_nil k').symm
  rw [List.dropLast_append_of_ne_nil htail]
  exact List.prefix_append ..

/-- A tree with no more than its working directory is in order. -/
theorem housed_empty (workingDirectory : Path) (nextTick tickLength : Int) :
    (empty workingDirectory nextTick tickLength).Housed := by
  intro k hk k' hpre hne
  have hnone (k : List String) : (⟨[], workingDirectory, nextTick, tickLength⟩ : FileTree).entryAt k =
      if k = [] then some .dir else none := by
    cases k <;> rfl
  rw [empty, entryAt_addDirs, hnone] at hk ⊢
  by_cases hwd : k <+: workingDirectory.names
  · rw [if_pos (hpre.trans hwd)]
    split <;> rfl
  · rw [if_neg hwd] at hk
    split at hk
    · rename_i hnil
      rw [hnil] at hpre hne
      exact absurd (List.prefix_nil.mp hpre) hne
    · cases hk

/-! ## Changes -/

theorem Housed.makeDirs (h : t.Housed) (hm : t.makeDirs p = .ok t') : t'.Housed := by
  intro k hk k' hpre hne
  rw [makeDirs_eq_ok hm, entryAt_addDirs] at hk
  cases hold : t.entryAt k with
  | some e =>
      have hdir := h k (by rw [hold]; rfl) k' hpre hne
      rw [makeDirs_eq_ok hm, entryAt_addDirs, hdir]
      rfl
  | none =>
      rw [hold, Option.none_or] at hk
      split at hk
      · exact entryAt_makeDirs hm (hpre.trans ‹_›)
      · cases hk

theorem Housed.place {content : Thunk ByteArray} {changed : Int} (h : t.Housed)
    (hp : t.place p content changed = .ok t') : t'.Housed := by
  intro k hk k' hpre hne
  refine dir_of_place hp ?_
  obtain ⟨rfl, hkey⟩ := place_eq_ok hp
  rw [entryAt_putAt hkey] at hk
  split at hk
  · subst k
    cases hold : t.entryAt (t.key p) with
    | some e => exact h _ (by rw [hold]; rfl) k' hpre hne
    | none =>
        have hparent : t.entryAt (t.key p).dropLast = some .dir := by
          unfold FileTree.place at hp
          dsimp only at hp
          rw [hold] at hp
          dsimp only at hp
          split at hp
          · assumption
          · cases hp
        by_cases hlast : k' = (t.key p).dropLast
        · rw [hlast, hparent]
        · exact h _ (by rw [hparent]; rfl) k' (prefix_dropLast hpre hne) hlast
  · exact h k hk k' hpre hne

theorem Housed.write {content : Thunk ByteArray} (h : t.Housed) (hw : t.write p content = .ok t') :
    t'.Housed := by
  obtain ⟨t₁, hp, rfl⟩ := write_eq_ok hw
  have hplaced := h.place hp
  exact hplaced

theorem Housed.removeFile (h : t.Housed) (hf : t.isFile p = true) : (t.removeFile p).Housed := by
  intro k hk k' hpre hne
  refine dir_of_removeFile hf ?_
  rw [entryAt_removeFile] at hk
  split at hk
  · obtain rfl := List.isEmpty_iff.mp ‹_›
    exact absurd (List.prefix_nil.mp hpre) hne
  · split at hk
    · cases hk
    · exact h k hk k' hpre hne

/-! ## The directory of a file -/

theorem key_parent (t : FileTree) (hp : p.EndsInName) : t.key p = t.key p.parent ++ [p.name] := by
  have hne : p.names ≠ [] := by
    intro hnil
    exact hp.nonempty (by rw [Path.name, hnil]; rfl)
  have hsplit : p.parent.below [p.name] = p := by
    have hname : p.name = p.names.getLast hne := by
      rw [Path.name, List.getLastD_eq_getLast?, List.getLast?_eq_some_getLast hne]
      rfl
    rw [Path.below, Path.parent, hname]
    dsimp only
    rw [List.dropLast_concat_getLast hne]
  have hbelow : t.key (p.parent.below [p.name]) = t.key p.parent ++ [p.name] :=
    t.key_below p.parent fun n hn => List.mem_singleton.mp hn ▸ hp.stays
  rw [← hbelow, hsplit]

/-- The directory of what is there is there. -/
theorem makeDirs_parent (h : t.Housed) (hp : p.EndsInName) (he : (t.entry? p).isSome) :
    t.makeDirs p.parent = .ok t := by
  refine makeDirs_of_dirs fun k hk => ?_
  have hkey := key_parent t hp
  refine h (t.key p) he k (hk.trans (hkey ▸ List.prefix_append ..)) ?_
  rintro rfl
  rw [hkey] at hk
  exact absurd hk.length_le (by simp)

/-- A file that is there can be written. -/
theorem write_of_isFile (hf : t.isFile p = true) (content : Thunk ByteArray) :
    ∃ t', t.write p content = .ok t' := by
  unfold isFile entry? at hf
  split at hf
  · rename_i hentry
    rw [FileTree.write, FileTree.place, hentry]
    exact ⟨_, rfl⟩
  · cases hf

end FileTree

end IntentBuild
