import IntentBuild.Files.Tree
import IntentBuild.Proofs.Assoc

/-!
# What the operations on a file tree change

`fileAt?` is the file at a key with the time of its last change, and `bytesAt?` its content.  Making
directories changes no file (`fileAt?_addDirs`), writing or placing a file changes the file at its
key (`bytesAt?_write`, `fileAt?_place`), and removing a file takes the file at its key away
(`bytesAt?_removeFile`).
-/

namespace IntentBuild.FileTree

variable {t t' : FileTree} {p q : Path} {k k' : List String}

/-- The content of the file at a key, if there is one. -/
def bytesAt? (t : FileTree) (k : List String) : Option ByteArray :=
  match t.entryAt k with
  | some (.file content _) => some content.get
  | _ => none

/-- The file at a key with the time of its last change, if there is one. -/
def fileAt? (t : FileTree) (k : List String) : Option (Thunk ByteArray × Int) :=
  match t.entryAt k with
  | some (.file content changed) => some (content, changed)
  | _ => none

theorem bytesAt?_eq_map (t : FileTree) (k : List String) :
    t.bytesAt? k = (t.fileAt? k).map fun f => f.1.get := by
  unfold bytesAt? fileAt?
  split <;> simp_all

theorem readBytes_eq_ok {b : ByteArray} : t.readBytes p = .ok b ↔ t.bytesAt? (t.key p) = some b := by
  unfold readBytes bytesAt? entry?
  split <;> simp_all

theorem isFile_iff : t.isFile p = true ↔ ∃ b, t.bytesAt? (t.key p) = some b := by
  unfold isFile bytesAt? entry?
  split <;> simp_all

theorem bytesAt?_congr (h : t'.entryAt k = t.entryAt k) : t'.bytesAt? k = t.bytesAt? k := by
  rw [bytesAt?, bytesAt?, h]

theorem entryAt_putAt (hk : k ≠ []) (e : FileEntry) (k' : List String) :
    (t.putAt k e).entryAt k' = if k' = k then some e else t.entryAt k' := by
  unfold entryAt putAt
  cases k' with
  | nil => rw [if_neg (Ne.symm hk)]; rfl
  | cons a k' => simp [Assoc.get?_set]

/-! ## Directories -/

theorem mem_starts : k' ∈ starts k ++ [k] ↔ k' <+: k := by
  rw [starts, List.mem_append, List.mem_singleton, List.mem_map]
  constructor
  · rintro (⟨n, -, rfl⟩ | rfl)
    · exact List.take_prefix n k
    · exact List.prefix_refl k'
  · intro h
    by_cases hk : k' = k
    · exact .inr hk
    · refine .inl ⟨k'.length, List.mem_range.mpr ?_, (List.prefix_iff_eq_take.mp h).symm⟩
      exact Nat.lt_of_le_of_ne h.length_le fun hl => hk (h.eq_of_length hl)

/-- Making directories touches no entry that is there. -/
theorem entryAt_addDirs (t : FileTree) (k k' : List String) :
    (t.addDirs k).entryAt k' = (t.entryAt k').or (if k' <+: k then some .dir else none) := by
  have hfold (ks : List (List String)) (t : FileTree) :
      (ks.foldl (fun t k => if (t.entryAt k).isSome then t else t.putAt k .dir) t).entryAt k' =
        (t.entryAt k').or (if k' ∈ ks then some .dir else none) := by
    induction ks generalizing t with
    | nil => simp
    | cons d ks ih =>
        rw [List.foldl_cons, ih]
        cases hd : t.entryAt d with
        | some e =>
            rw [if_pos (by rfl)]
            by_cases hk : k' = d
            · rw [hk, hd]; rfl
            · simp [hk]
        | none =>
            have hne : d ≠ [] := fun h => by rw [h] at hd; cases hd
            rw [if_neg (by simp), entryAt_putAt hne]
            by_cases hk : k' = d
            · rw [if_pos hk, hk, hd]; simp
            · simp [hk]
  rw [addDirs, hfold]
  simp only [mem_starts]

/-- Making directories touches no file. -/
theorem fileAt?_addDirs (t : FileTree) (k k' : List String) :
    (t.addDirs k).fileAt? k' = t.fileAt? k' := by
  rw [fileAt?, entryAt_addDirs, fileAt?]
  cases t.entryAt k' with
  | some e => rfl
  | none => by_cases h : k' <+: k <;> simp [h]

theorem bytesAt?_addDirs (t : FileTree) (k k' : List String) :
    (t.addDirs k).bytesAt? k' = t.bytesAt? k' := by
  rw [bytesAt?_eq_map, fileAt?_addDirs, bytesAt?_eq_map]

theorem workingDirectory_addDirs (t : FileTree) (k : List String) :
    (t.addDirs k).workingDirectory = t.workingDirectory := by
  unfold addDirs
  generalize starts k ++ [k] = ks
  induction ks generalizing t with
  | nil => rfl
  | cons d ks ih =>
      rw [List.foldl_cons, ih]
      split <;> rfl

theorem makeDirs_eq_ok (h : t.makeDirs p = .ok t') : t' = t.addDirs (t.key p) := by
  unfold makeDirs at h
  dsimp only at h
  split at h
  · cases h
  · split at h
    · cases h
    · cases h
      rfl

/-- Where directories are made, no file stands in their place. -/
theorem entryAt_makeDirs (h : t.makeDirs p = .ok t') (hk : k <+: t.key p) :
    t'.entryAt k = some .dir := by
  have hfile : t.isFileAt k = false := by
    unfold makeDirs at h
    dsimp only at h
    split at h
    · cases h
    · split at h
      · cases h
      · rename_i hlast hstarts
        rcases List.mem_append.mp (mem_starts.mpr hk) with hm | hm
        · simpa using fun hf => hstarts (List.any_eq_true.mpr ⟨k, hm, hf⟩)
        · rw [List.mem_singleton.mp hm]
          simpa using hlast
  rw [makeDirs_eq_ok h, entryAt_addDirs, if_pos hk]
  unfold isFileAt at hfile
  split at hfile
  · cases hfile
  · rename_i hne
    cases he : t.entryAt k with
    | none => rfl
    | some e =>
        cases e with
        | dir => rfl
        | file content changed => exact absurd he (hne content changed)

/-- Directories that are there already are left alone. -/
theorem makeDirs_of_dirs (h : ∀ k, k <+: t.key p → t.entryAt k = some .dir) :
    t.makeDirs p = .ok t := by
  have hfile {k : List String} (hk : k ∈ starts (t.key p) ++ [t.key p]) : t.isFileAt k = false := by
    rw [isFileAt, h k (mem_starts.mp hk)]
  have hadd : t.addDirs (t.key p) = t := by
    unfold addDirs
    refine List.foldlRecOn (motive := fun t' => t' = t) _ _ rfl fun t' ht k hk => ?_
    rw [ht, h k (mem_starts.mp hk)]
    rfl
  have hlast : t.isFileAt (t.key p) = false := hfile (List.mem_append_right _ List.mem_cons_self)
  have hstarts : (starts (t.key p)).any t.isFileAt = false := List.any_eq_false.mpr fun k hk => by
    rw [hfile (List.mem_append_left _ hk)]
    exact Bool.false_ne_true
  rw [makeDirs]
  simp only [hlast, hstarts, hadd, Bool.false_eq_true, if_false]

/-! ## Trees without files -/

theorem bytesAt?_empty (d : Path) (now tick : Int) (k : List String) :
    (empty d now tick).bytesAt? k = none := by
  rw [empty, bytesAt?_addDirs]
  cases k <;> rfl

theorem isFile_empty (d : Path) (now tick : Int) (p : Path) : (empty d now tick).isFile p = false := by
  rw [← Bool.not_eq_true, isFile_iff, bytesAt?_empty]
  simp

theorem makeDirs_empty (d : Path) (now tick : Int) (p : Path) :
    (empty d now tick).makeDirs p = .ok ((empty d now tick).addDirs ((empty d now tick).key p)) := by
  have hfile (k : List String) : (empty d now tick).isFileAt k = false := by
    have hnone := bytesAt?_empty d now tick k
    unfold bytesAt? at hnone
    unfold isFileAt
    split at hnone <;> simp_all
  rw [makeDirs]
  simp [hfile]

/-! ## Files -/

theorem place_eq_ok {content : Thunk ByteArray} {changed : Int}
    (h : t.place p content changed = .ok t') :
    t' = t.putAt (t.key p) (.file content changed) ∧ t.key p ≠ [] := by
  unfold place at h
  dsimp only at h
  have hne (hdir : t.entryAt (t.key p) ≠ some .dir) : t.key p ≠ [] := fun hk =>
    hdir (by rw [hk]; rfl)
  split at h
  · cases h
  · rename_i he
    cases h
    exact ⟨rfl, hne (by rw [he]; nofun)⟩
  · rename_i he
    split at h
    · cases h
      exact ⟨rfl, hne (by rw [he]; nofun)⟩
    · cases h

/-- A file is placed in a directory, unless a directory stands in its place. -/
theorem place_of_ne_dir {content : Thunk ByteArray} {changed : Int}
    (hd : t.entryAt (t.key p).dropLast = some .dir) (hne : t.entryAt (t.key p) ≠ some .dir) :
    ∃ t', t.place p content changed = .ok t' := by
  unfold place
  dsimp only
  rw [hd]
  split
  · exact absurd ‹_› hne
  · exact ⟨_, rfl⟩
  · exact ⟨_, rfl⟩

/-- Placing a file leaves directories alone. -/
theorem dir_of_place {content : Thunk ByteArray} {changed : Int}
    (h : t.place p content changed = .ok t') (hk : t.entryAt k = some .dir) :
    t'.entryAt k = some .dir := by
  obtain ⟨rfl, hne⟩ := place_eq_ok h
  rw [entryAt_putAt hne, if_neg ?_, hk]
  rintro rfl
  unfold place at h
  dsimp only at h
  rw [hk] at h
  cases h

theorem fileAt?_place {content : Thunk ByteArray} {changed : Int}
    (h : t.place p content changed = .ok t') (k : List String) :
    t'.fileAt? k = if k = t.key p then some (content, changed) else t.fileAt? k := by
  obtain ⟨rfl, hne⟩ := place_eq_ok h
  rw [fileAt?, entryAt_putAt hne, fileAt?]
  by_cases hk : k = t.key p
  · rw [if_pos hk, if_pos hk]
  · rw [if_neg hk, if_neg hk]

theorem bytesAt?_place {content : Thunk ByteArray} {changed : Int}
    (h : t.place p content changed = .ok t') (k : List String) :
    t'.bytesAt? k = if k = t.key p then some content.get else t.bytesAt? k := by
  rw [bytesAt?_eq_map, fileAt?_place h, bytesAt?_eq_map]
  split <;> rfl

theorem write_eq_ok {content : Thunk ByteArray} (h : t.write p content = .ok t') :
    ∃ t₁, t.place p content t.nextTick = .ok t₁ ∧
      t' = { t₁ with nextTick := t₁.nextTick + t₁.tickLength } := by
  unfold write at h
  cases hp : t.place p content t.nextTick with
  | error e => rw [hp] at h; cases h
  | ok t₁ => rw [hp] at h; cases h; exact ⟨t₁, rfl, rfl⟩

theorem bytesAt?_write {content : Thunk ByteArray} (h : t.write p content = .ok t')
    (k : List String) :
    t'.bytesAt? k = if k = t.key p then some content.get else t.bytesAt? k := by
  obtain ⟨t₁, hp, rfl⟩ := write_eq_ok h
  rw [← bytesAt?_place hp]
  rfl

theorem entryAt_removeFile (t : FileTree) (p : Path) (k : List String) :
    (t.removeFile p).entryAt k =
      if k.isEmpty then some .dir else if k = t.key p then none else t.entryAt k := by
  unfold entryAt removeFile
  have hfilter := Assoc.get?_filter_key (fun k' => decide (k' ≠ t.key p)) k t.entries
  rw [hfilter]
  by_cases he : k.isEmpty <;> by_cases hk : k = t.key p <;> simp [he, hk]

theorem bytesAt?_removeFile (t : FileTree) (p : Path) (k : List String) :
    (t.removeFile p).bytesAt? k = if k = t.key p then none else t.bytesAt? k := by
  rw [bytesAt?, entryAt_removeFile]
  cases k with
  | nil => by_cases hk : [] = t.key p <;> simp [hk, bytesAt?, entryAt]
  | cons a k =>
      by_cases hk : a :: k = t.key p
      · simp [hk]
      · simp [hk, bytesAt?]

/-- Removing a file leaves directories alone. -/
theorem dir_of_removeFile (h : t.isFile p = true) (hk : t.entryAt k = some .dir) :
    (t.removeFile p).entryAt k = some .dir := by
  rw [entryAt_removeFile]
  by_cases he : k.isEmpty
  · rw [if_pos he]
  · rw [if_neg he, if_neg ?_, hk]
    rintro rfl
    rw [isFile, entry?, hk] at h
    cases h

/-! ## The working directory -/

theorem key_congr (h : t'.workingDirectory = t.workingDirectory) (p : Path) : t'.key p = t.key p := by
  rw [key, key, h]

theorem key_makeDirs (h : t.makeDirs p = .ok t') (q : Path) : t'.key q = t.key q := by
  rw [makeDirs_eq_ok h]
  exact key_congr (workingDirectory_addDirs ..) q

theorem key_place {content : Thunk ByteArray} {changed : Int}
    (h : t.place p content changed = .ok t') (q : Path) : t'.key q = t.key q := by
  obtain ⟨rfl, -⟩ := place_eq_ok h
  rfl

theorem workingDirectory_write {content : Thunk ByteArray} (h : t.write p content = .ok t') :
    t'.workingDirectory = t.workingDirectory := by
  obtain ⟨t₁, hp, rfl⟩ := write_eq_ok h
  obtain ⟨rfl, -⟩ := place_eq_ok hp
  rfl

theorem key_write {content : Thunk ByteArray} (h : t.write p content = .ok t') (q : Path) :
    t'.key q = t.key q :=
  key_congr (workingDirectory_write h) q

end IntentBuild.FileTree
