import IntentBuild.Proofs.Files.Housed
import IntentBuild.Proofs.Files.Listing
import IntentBuild.Proofs.Operation.Event

/-!
# What changes leave of the files

A change that writes and removes no file at a row of names (`Event.Clears`) leaves the file there as
it was, unless it is the document of the graph (`Reach.fileAt?_eq`).  Directories never go
(`Reach.dir`), and paths lead to the same places at all times (`Reach.key_eq`).

A workspace whose files have proper names (`Workspace.Proper`) keeps them while only paths of proper
names are written (`Reach.proper`).
-/

namespace IntentBuild

open Op

namespace Workspace

/-- The names of the absolute path of the document. -/
def documentKey (w : Workspace) : List String := w.files.key (documentPath w.graph)

theorem documentKey_eq (w : Workspace) :
    w.documentKey = w.files.key w.graph.root ++ ["graph.json"] := by
  rw [documentKey, documentPath, Path.child_name _ (by decide)]
  exact w.files.key_below _ (by decide)

/-- The document has not the ending of specifications and intent files. -/
theorem documentKey_ne_of_shown (w : Workspace) {names : List String}
    (h : FileTree.Shown ".md" names) (k : List String) : w.documentKey ≠ k ++ names := by
  intro heq
  obtain ⟨init, last, rfl⟩ := List.eq_nil_or_concat names |>.resolve_left h.nonempty
  rw [w.documentKey_eq, List.concat_eq_append, ← List.append_assoc] at heq
  have hlast := List.singleton_inj.mp (List.append_inj_right' heq rfl)
  have hending := h.ending
  rw [List.concat_eq_append, List.getLastD_concat, ← hlast] at hending
  exact absurd hending (by decide +kernel)

/-- Files have proper names, and so have the directories that paths are seen from. -/
structure Proper (w : Workspace) : Prop where
  /-- The files. -/
  files : w.files.Proper
  /-- The working directory. -/
  workingDirectory : ∀ n ∈ w.files.workingDirectory.names, Path.IsName n
  /-- The directory of the document. -/
  root : ∀ n ∈ w.graph.root.names, Path.IsName n

end Workspace

/-- The change writes and removes no file at a row of names, as seen from a directory. -/
def Event.Clears (d : Path) (k : List String) : Event → Prop
  | .write p _ | .remove p => (p.resolve d).names ≠ k
  | _ => True

/-- A file that is written has proper names. -/
def Event.Proper : Event → Prop
  | .write p _ => ∀ n ∈ p.names, Path.IsName n
  | _ => True

/-- The change is no removal of a file. -/
def Event.Retains : Event → Prop
  | .remove _ => False
  | _ => True

/-! ## Single changes -/

namespace Happens

variable {e : Event} {w w' : Workspace}

theorem workingDirectory_eq (h : Happens e w w') :
    w'.files.workingDirectory = w.files.workingDirectory := by
  cases h with
  | makeDirs h => rw [FileTree.makeDirs_eq_ok h]; exact FileTree.workingDirectory_addDirs ..
  | save h => obtain ⟨rfl, -⟩ := FileTree.place_eq_ok h; rfl
  | write h => exact FileTree.workingDirectory_write h
  | _ => rfl

theorem documentKey_eq (h : Happens e w w') : w'.documentKey = w.documentKey := by
  unfold Workspace.documentKey documentPath
  rw [h.root_eq, FileTree.key_congr h.workingDirectory_eq]

/-- Directories never go. -/
theorem dir (h : Happens e w w') {k : List String} (hk : w.files.entryAt k = some .dir) :
    w'.files.entryAt k = some .dir := by
  cases h with
  | makeDirs h => rw [FileTree.makeDirs_eq_ok h, FileTree.entryAt_addDirs, hk]; rfl
  | save h => exact FileTree.dir_of_place h hk
  | write h =>
      obtain ⟨t, ht, rfl⟩ := FileTree.write_eq_ok h
      have hdir := FileTree.dir_of_place ht hk
      exact hdir
  | remove h => exact FileTree.dir_of_removeFile h hk
  | _ => exact hk

/-- The tree stays in order. -/
theorem housed (h : Happens e w w') (hw : w.files.Housed) : w'.files.Housed := by
  cases h with
  | makeDirs h => exact hw.makeDirs h
  | save h => exact hw.place h
  | write h => exact hw.write h
  | remove h => exact hw.removeFile h
  | _ => exact hw

/-- A file that is neither written nor removed stays, unless it is the document. -/
theorem fileAt?_eq (h : Happens e w w') {k : List String}
    (he : e.Quiet ∨ e.Clears w.files.workingDirectory k) (hk : k ≠ w.documentKey) :
    w'.files.fileAt? k = w.files.fileAt? k := by
  cases h with
  | makeDirs h => rw [FileTree.makeDirs_eq_ok h, FileTree.fileAt?_addDirs]
  | save h => rw [FileTree.fileAt?_place h]; exact if_neg hk
  | write h =>
      have hne : k ≠ w.files.key _ := fun hk => he.elim id fun hc => hc hk.symm
      obtain ⟨t, ht, rfl⟩ := FileTree.write_eq_ok h
      exact (FileTree.fileAt?_place ht k).trans (if_neg hne)
  | remove h =>
      have hne : k ≠ w.files.key _ := fun hk => he.elim id fun hc => hc hk.symm
      exact (FileTree.fileAt?_removeFile ..).trans (if_neg hne)
  | _ => rfl

/-- Where no file is removed, a file stays. -/
theorem isSome_fileAt? (h : Happens e w w') (he : e.Quiet ∨ e.Retains) {k : List String}
    (hk : (w.files.fileAt? k).isSome) : (w'.files.fileAt? k).isSome := by
  cases h with
  | makeDirs h => rwa [FileTree.makeDirs_eq_ok h, FileTree.fileAt?_addDirs]
  | save h =>
      rw [FileTree.fileAt?_place h]
      split
      · rfl
      · exact hk
  | write h =>
      obtain ⟨t, ht, rfl⟩ := FileTree.write_eq_ok h
      have hput := FileTree.fileAt?_place ht k
      change (t.fileAt? k).isSome
      rw [hput]
      split
      · rfl
      · exact hk
  | remove => exact (he.resolve_left id).elim
  | _ => exact hk

/-- The files that are listed stay while none of them is written or removed. -/
theorem filesBelow_eq (h : Happens e w w') {root : Path} {suffix : String}
    (he : e.Quiet ∨ ∀ names, FileTree.Shown suffix names →
      e.Clears w.files.workingDirectory (w.files.key root ++ names))
    (hs : ∀ names, FileTree.Shown suffix names → w.documentKey ≠ w.files.key root ++ names) :
    w'.files.filesBelow root suffix = w.files.filesBelow root suffix := by
  rw [FileTree.filesBelow_eq, FileTree.filesBelow_eq, FileTree.key_congr h.workingDirectory_eq]
  have put {p : Path} {content : Thunk ByteArray} {changed : Int} {t : FileTree}
      (hp : w.files.place p content changed = .ok t)
      (hne : ∀ names, FileTree.Shown suffix names → w.files.key p ≠ w.files.key root ++ names) :
      t.entries.filterMap (FileTree.listed? (w.files.key root) suffix) =
        w.files.entries.filterMap (FileTree.listed? (w.files.key root) suffix) := by
    obtain ⟨rfl, -⟩ := FileTree.place_eq_ok hp
    exact Assoc.filterMap_set (FileTree.listed?_eq_none hne) _ _
  congr 1
  cases h with
  | makeDirs h => rw [FileTree.makeDirs_eq_ok h]; exact FileTree.filterMap_addDirs ..
  | save h => exact put h hs
  | write h =>
      obtain ⟨t, ht, rfl⟩ := FileTree.write_eq_ok h
      have hput := put ht (he.resolve_left id)
      exact hput
  | @remove _ p h =>
      have hne (names : List String) (hn : FileTree.Shown suffix names) :
          w.files.key p ≠ w.files.key root ++ names := he.resolve_left id names hn
      refine (List.filterMap_filter ..).trans ?_
      congr 1
      funext ⟨k, entry⟩
      by_cases hk : k = w.files.key p
      · subst hk
        rw [FileTree.listed?_eq_none hne]
        simp
      · simp [hk]
  | _ => rfl

/-- Files keep proper names. -/
theorem proper (h : Happens e w w') (he : e.Quiet ∨ e.Proper) (hw : w.Proper) : w'.Proper where
  files := by
    cases h with
    | makeDirs h => rw [FileTree.makeDirs_eq_ok h]; exact hw.files.addDirs _
    | save h =>
        refine hw.files.place h (FileTree.isName_of_mem_key hw.workingDirectory ?_)
        rw [documentPath, Path.child_name _ (by decide)]
        intro n hn
        rcases List.mem_append.mp hn with hn | hn
        · exact hw.root n hn
        · exact List.mem_singleton.mp hn ▸ ⟨by decide, by decide, by decide⟩
    | write h =>
        obtain ⟨t, ht, rfl⟩ := FileTree.write_eq_ok h
        have hp := hw.files.place ht
          (FileTree.isName_of_mem_key hw.workingDirectory (he.resolve_left id))
        exact ⟨hp.entries, hp.names⟩
    | remove h => exact hw.files.removeFile _
    | _ => exact hw.files
  workingDirectory := by rw [h.workingDirectory_eq]; exact hw.workingDirectory
  root := by rw [h.root_eq]; exact hw.root

end Happens

/-! ## Rows of changes -/

namespace Reach

variable {A : Event → Prop} {w w' : Workspace}

theorem workingDirectory_eq (h : Reach A w w') :
    w'.files.workingDirectory = w.files.workingDirectory := by
  induction h with
  | refl => rfl
  | step _ _ hs ih => exact hs.workingDirectory_eq.trans ih

theorem key_eq (h : Reach A w w') (p : Path) : w'.files.key p = w.files.key p :=
  FileTree.key_congr h.workingDirectory_eq p

theorem root_eq (h : Reach A w w') : w'.graph.root = w.graph.root := by
  induction h with
  | refl => rfl
  | step _ _ hs ih => exact hs.root_eq.trans ih

theorem documentKey_eq (h : Reach A w w') : w'.documentKey = w.documentKey := by
  induction h with
  | refl => rfl
  | step _ _ hs ih => exact hs.documentKey_eq.trans ih

theorem dir (h : Reach A w w') {k : List String} (hk : w.files.entryAt k = some .dir) :
    w'.files.entryAt k = some .dir := by
  induction h with
  | refl => exact hk
  | step _ _ hs ih => exact hs.dir ih

/-- The tree stays in order. -/
theorem housed (h : Reach A w w') (hw : w.files.Housed) : w'.files.Housed := by
  induction h with
  | refl => exact hw
  | step _ _ hs ih => exact hs.housed ih

/-- A file that is neither written nor removed stays, unless it is the document. -/
theorem fileAt?_eq {k : List String} (h : Reach (Event.Clears w.files.workingDirectory k) w w')
    (hk : k ≠ w.documentKey) : w'.files.fileAt? k = w.files.fileAt? k := by
  induction h with
  | refl => rfl
  | step h he hs ih =>
      rw [← h.workingDirectory_eq] at he
      exact (hs.fileAt?_eq he (by rwa [h.documentKey_eq])).trans ih

/-- Where no file is removed, a file stays. -/
theorem isSome_fileAt? (h : Reach Event.Retains w w') {k : List String}
    (hk : (w.files.fileAt? k).isSome) : (w'.files.fileAt? k).isSome := by
  induction h with
  | refl => exact hk
  | step _ he hs ih => exact hs.isSome_fileAt? he ih

/-- The list of the files below a directory stays while none of them is written or removed. -/
theorem filesBelow_eq {root : Path} {suffix : String} (h : Reach (fun e => ∀ names,
      FileTree.Shown suffix names → e.Clears w.files.workingDirectory (w.files.key root ++ names)) w w')
    (hs : ∀ names, FileTree.Shown suffix names → w.documentKey ≠ w.files.key root ++ names) :
    w'.files.filesBelow root suffix = w.files.filesBelow root suffix := by
  induction h with
  | refl => rfl
  | step h he hstep ih =>
      rw [← h.workingDirectory_eq, ← h.key_eq] at he
      refine (hstep.filesBelow_eq he fun names hn => ?_).trans ih
      rw [h.documentKey_eq, h.key_eq]
      exact hs names hn

theorem proper (h : Reach Event.Proper w w') (hw : w.Proper) : w'.Proper := by
  induction h with
  | refl => exact hw
  | step _ he hs ih => exact hs.proper he ih

end Reach

end IntentBuild
