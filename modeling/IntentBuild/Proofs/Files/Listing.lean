import IntentBuild.Proofs.Files.Path
import IntentBuild.Proofs.Files.Tree

/-!
# Listing files

In a tree every path of which is a row of proper names (`FileTree.Proper`), the files that are listed
below a directory are exactly those at a shown row of names with the ending asked for
(`FileTree.mem_listFiles`).
-/

namespace IntentBuild

namespace FileTree

variable {t t' : FileTree} {p : Path} {k : List String}

/-- Every entry stands at a row of its own, and the path of a file has names that can stand in a
path. -/
structure Proper (t : FileTree) : Prop where
  /-- No two entries stand at one row. -/
  entries : Assoc.Proper t.entries
  /-- The names of the path of a file. -/
  names : ∀ {k}, (t.fileAt? k).isSome → ∀ n ∈ k, Path.IsName n

theorem isFile_iff_fileAt? : t.isFile p = true ↔ (t.fileAt? (t.key p)).isSome := by
  unfold isFile fileAt? entry?
  split <;> simp_all

/-! ## Shown rows of names -/

/-- A row of names that is listed for an ending. -/
structure Shown (suffix : String) (names : List String) : Prop where
  /-- It leads somewhere. -/
  nonempty : names ≠ []
  /-- No name begins with a point. -/
  shown : ∀ n ∈ names, isShown n = true
  /-- The last name has the ending. -/
  ending : Text.finishesWith (names.getLastD "") suffix = true

theorem Shown.not_up {suffix : String} {names : List String} (h : Shown suffix names) :
    ∀ n ∈ names, n ≠ ".." := by
  rintro n hn rfl
  exact absurd (h.shown _ hn) (by decide)

/-- What a listing makes of an entry, where the row of names of the directory is given. -/
def listed? (root : List String) (suffix : String) (e : List String × FileEntry) :
    Option (List String) :=
  match (if root.isPrefixOf e.1 && root.length < e.1.length then some (e.1.drop root.length, e.2)
    else none : Option (List String × FileEntry)) with
  | some (names, .file ..) =>
      if names.all isShown && Text.finishesWith (names.getLastD "") suffix then some names else none
  | _ => none

theorem filesBelow_eq (t : FileTree) (root : Path) (suffix : String) : t.filesBelow root suffix =
    Sorting.sort namesLe (t.entries.filterMap (listed? (t.key root) suffix)) := by
  rw [filesBelow, below, List.filterMap_filterMap]
  congr 2
  funext e
  unfold listed?
  cases e.2 <;> split <;> rfl

/-- Files at shown rows of names are listed. -/
theorem listed?_eq_some {root names : List String} {suffix : String} {e : FileEntry} :
    listed? root suffix (k, e) = some names ↔ k = root ++ names ∧ Shown suffix names ∧
      ∃ content changed, e = .file content changed := by
  unfold listed?
  constructor
  · intro h
    split at h
    · rename_i rest content changed heq
      split at heq
      · rename_i hcond
        rw [Bool.and_eq_true, List.isPrefixOf_iff_prefix, decide_eq_true_eq] at hcond
        obtain ⟨⟨tail, rfl⟩, hlen⟩ := hcond
        obtain ⟨rfl, rfl⟩ := Prod.mk.inj (Option.some.inj heq)
        split at h
        · rename_i hshown
          rw [List.drop_left] at h hshown
          cases h
          rw [Bool.and_eq_true, List.all_eq_true] at hshown
          refine ⟨rfl, ⟨?_, hshown.1, hshown.2⟩, content, changed, rfl⟩
          rintro rfl
          simp at hlen
        · cases h
      · cases heq
    · cases h
  · rintro ⟨rfl, h, content, changed, rfl⟩
    have hlen : root.length < (root ++ names).length := by
      rw [List.length_append]
      exact Nat.lt_add_of_pos_right (List.length_pos_iff.mpr h.nonempty)
    have hcond : (root.isPrefixOf (root ++ names) && decide (root.length < (root ++ names).length)) =
        true := by
      rw [Bool.and_eq_true, List.isPrefixOf_iff_prefix, decide_eq_true_eq]
      exact ⟨List.prefix_append .., hlen⟩
    have hshown : (names.all isShown && Text.finishesWith (names.getLastD "") suffix) = true := by
      rw [Bool.and_eq_true, List.all_eq_true]
      exact ⟨h.shown, h.ending⟩
    dsimp only
    rw [if_pos hcond, List.drop_left]
    exact if_pos hshown

/-- Only files at shown rows of names are listed. -/
theorem listed?_eq_none {root : List String} {suffix : String}
    (h : ∀ names, Shown suffix names → k ≠ root ++ names) (e : FileEntry) :
    listed? root suffix (k, e) = none :=
  Option.eq_none_iff_forall_ne_some.mpr fun names hn =>
    h names (listed?_eq_some.mp hn).2.1 (listed?_eq_some.mp hn).1

theorem listed?_dir (root : List String) (suffix : String) (k : List String) :
    listed? root suffix (k, .dir) = none :=
  Option.eq_none_iff_forall_ne_some.mpr fun _ hn => by
    obtain ⟨-, -, _, _, he⟩ := listed?_eq_some.mp hn
    cases he

/-- The files that are listed are those at shown rows of names. -/
theorem mem_filesBelow (ht : Assoc.Proper t.entries) {root : Path} {suffix : String}
    {names : List String} : names ∈ t.filesBelow root suffix ↔
      Shown suffix names ∧ (t.fileAt? (t.key root ++ names)).isSome := by
  have hfile {content : Thunk ByteArray} {changed : Int} (hn : names ≠ []) :
      (t.key root ++ names, FileEntry.file content changed) ∈ t.entries ↔
        t.fileAt? (t.key root ++ names) = some (content, changed) := by
    rw [← Assoc.get?_eq_some_iff ht, fileAt?, entryAt, if_neg (by simp [hn])]
    split <;> simp_all
  rw [filesBelow_eq, Sorting.mem_sort, List.mem_filterMap]
  constructor
  · rintro ⟨⟨k, e⟩, hmem, he⟩
    obtain ⟨rfl, hshown, content, changed, rfl⟩ := listed?_eq_some.mp he
    exact ⟨hshown, by rw [(hfile hshown.nonempty).mp hmem]; rfl⟩
  · rintro ⟨hshown, hsome⟩
    obtain ⟨⟨content, changed⟩, hat⟩ := Option.isSome_iff_exists.mp hsome
    exact ⟨_, (hfile hshown.nonempty).mpr hat, listed?_eq_some.mpr ⟨rfl, hshown, _, _, rfl⟩⟩

/-- No row of names is listed twice. -/
theorem nodup_filesBelow (ht : Assoc.Proper t.entries) (root : Path) (suffix : String) :
    (t.filesBelow root suffix).Nodup := by
  rw [filesBelow_eq, (Sorting.sort_perm _).nodup_iff]
  have hkeys {es : List (List String × FileEntry)} (h : Assoc.Proper es) :
      (es.filterMap (listed? (t.key root) suffix)).Nodup := by
    induction es with
    | nil => exact List.nodup_nil
    | cons e es ih =>
        obtain ⟨hnew, hes⟩ := Assoc.proper_cons.mp h
        rw [List.filterMap_cons]
        split
        · exact ih hes
        · rename_i names hn
          refine List.nodup_cons.mpr ⟨fun hmem => ?_, ih hes⟩
          obtain ⟨⟨k, e'⟩, hmem, he⟩ := List.mem_filterMap.mp hmem
          refine hnew ?_
          rw [(listed?_eq_some.mp hn).1, ← (listed?_eq_some.mp he).1]
          exact Assoc.mem_keys_of_mem hmem
  exact hkeys ht

/-- The paths that are listed below a directory. -/
theorem mem_listFiles (ht : Assoc.Proper t.entries) {root : Path} {suffix : String} :
    p ∈ t.listFiles root suffix ↔ ∃ names, p = root.below names ∧ Shown suffix names ∧
      (t.fileAt? (t.key p)).isSome := by
  have hkey {names : List String} (h : Shown suffix names) :
      t.key (root.below names) = t.key root ++ names := t.key_below root h.not_up
  rw [listFiles, List.mem_map]
  constructor
  · rintro ⟨names, hnames, rfl⟩
    obtain ⟨hshown, hfile⟩ := (mem_filesBelow ht).mp hnames
    exact ⟨names, rfl, hshown, by rwa [← hkey hshown] at hfile⟩
  · rintro ⟨names, rfl, hshown, hfile⟩
    exact ⟨names, (mem_filesBelow ht).mpr ⟨hshown, by rwa [hkey hshown] at hfile⟩, rfl⟩

/-! ## Changes of a proper tree -/

theorem proper_foldl_putAt (ks : List (List String)) (t : FileTree) (ht : Assoc.Proper t.entries) :
    Assoc.Proper (ks.foldl
      (fun t k => if (t.entryAt k).isSome then t else t.putAt k .dir) t).entries := by
  induction ks generalizing t with
  | nil => exact ht
  | cons d ks ih =>
      rw [List.foldl_cons]
      split
      · exact ih t ht
      · exact ih _ (Assoc.proper_set ht _ _)

/-- Directories may have any names. -/
theorem Proper.addDirs (ht : t.Proper) (k : List String) : (t.addDirs k).Proper where
  entries := proper_foldl_putAt _ t ht.entries
  names h := ht.names (by rwa [fileAt?_addDirs] at h)

theorem Proper.place {content : Thunk ByteArray} {changed : Int} (ht : t.Proper)
    (h : t.place p content changed = .ok t') (hp : ∀ n ∈ t.key p, Path.IsName n) : t'.Proper where
  entries := by
    obtain ⟨rfl, -⟩ := place_eq_ok h
    exact Assoc.proper_set ht.entries _ _
  names {k} hk := by
    rw [fileAt?_place h] at hk
    split at hk
    · rename_i heq
      exact heq ▸ hp
    · exact ht.names hk

/-- Directories are not listed. -/
theorem filterMap_addDirs (root : List String) (suffix : String) (t : FileTree) (k : List String) :
    (t.addDirs k).entries.filterMap (listed? root suffix) =
      t.entries.filterMap (listed? root suffix) := by
  unfold addDirs
  generalize starts k ++ [k] = ks
  induction ks generalizing t with
  | nil => rfl
  | cons d ks ih =>
      rw [List.foldl_cons, ih]
      split
      · rfl
      · rename_i hd
        have hd : d ∉ Assoc.keys t.entries := by
          intro hmem
          obtain ⟨e, he⟩ := Assoc.exists_get?_of_mem_keys hmem
          rw [entryAt, he] at hd
          split at hd <;> simp at hd
        rw [putAt, Assoc.set_of_not_mem hd]
        simp [listed?_dir]

theorem fileAt?_removeFile (t : FileTree) (p : Path) (k : List String) :
    (t.removeFile p).fileAt? k = if k = t.key p then none else t.fileAt? k := by
  rw [fileAt?, entryAt_removeFile, fileAt?]
  cases k with
  | nil => by_cases hk : [] = t.key p <;> simp [hk, entryAt]
  | cons a k => by_cases hk : a :: k = t.key p <;> simp [hk]

theorem Proper.removeFile (ht : t.Proper) (p : Path) : (t.removeFile p).Proper where
  entries := (List.filter_sublist.map Prod.fst).nodup ht.entries
  names {k} hk := by
    rw [fileAt?_removeFile] at hk
    split at hk
    · cases hk
    · exact ht.names hk

/-- The names of a path in a tree are those of the directory and of the path. -/
theorem isName_of_mem_key (hd : ∀ n ∈ t.workingDirectory.names, Path.IsName n)
    (hp : ∀ n ∈ p.names, Path.IsName n) : ∀ n ∈ t.key p, Path.IsName n := by
  have resolve (ns acc : List String) (hacc : ∀ n ∈ acc, Path.IsName n)
      (hns : ∀ n ∈ ns, Path.IsName n) :
      ∀ n ∈ ns.foldl (fun acc n => if n == ".." then acc.dropLast else acc ++ [n]) acc,
        Path.IsName n := by
    induction ns generalizing acc with
    | nil => exact hacc
    | cons m ns ih =>
        rw [List.foldl_cons]
        refine ih _ ?_ fun n hn => hns n (.tail _ hn)
        split
        · exact fun n hn => hacc n (List.dropLast_subset _ hn)
        · intro n hn
          rcases List.mem_append.mp hn with hn | hn
          · exact hacc n hn
          · exact List.mem_singleton.mp hn ▸ hns m (.head _)
  refine resolve _ _ nofun ?_
  unfold Path.join
  split
  · exact hp
  · intro n hn
    exact (List.mem_append.mp hn).elim (hd n) (hp n)

end FileTree

/-! ## Source paths -/

namespace Path

/-- The source path of a shown file has the names of the file, the last one without its ending, and
none of them leads upwards. -/
theorem ofText_source {ns : List String} (hs : FileTree.Shown ".md" ns) (h : ∀ n ∈ ns, IsName n) :
    ∃ init l, ns = init ++ [l ++ ".md"] ∧
      ofText (withoutIntentSuffix (Text.joinWith "/" ns)) = ⟨.none, init ++ [l]⟩ ∧
        ∀ n ∈ init ++ [l], IsName n ∧ n ≠ ".." := by
  obtain ⟨init, last, rfl⟩ := List.eq_nil_or_concat ns |>.resolve_left hs.nonempty
  rw [List.concat_eq_append] at hs h ⊢
  have hending := hs.ending
  rw [List.getLastD_concat, Text.finishesWith, List.isPrefixOf_iff_prefix,
    List.reverse_prefix] at hending
  obtain ⟨cs, hcs⟩ := hending
  have hlast : last = String.ofList cs ++ ".md" :=
    String.toList_inj.mp (by rw [String.toList_append, String.toList_ofList, hcs])
  have hname := h last (by simp)
  have hshown := hs.shown last (by simp)
  have hl : IsName (String.ofList cs) ∧ String.ofList cs ≠ ".." := by
    have first {s : String} (hpoint : (s ++ ".md").toList.head? = some '.') :
        String.ofList cs ≠ s := by
      rintro rfl
      rw [← hlast] at hpoint
      rw [FileTree.isShown, Text.beginsWith] at hshown
      cases hchars : last.toList with
      | nil => rw [hchars] at hpoint; cases hpoint
      | cons c cs =>
          rw [hchars] at hpoint hshown
          cases hpoint
          simp at hshown
    refine ⟨⟨first (by decide), first (by decide), fun hmem => hname.whole ?_⟩, first (by decide)⟩
    rw [hlast, String.toList_append]
    exact List.mem_append_left _ hmem
  have hnames : ∀ n ∈ init ++ [String.ofList cs], IsName n ∧ n ≠ ".." := by
    intro n hn
    rcases List.mem_append.mp hn with hn | hn
    · exact ⟨h n (List.mem_append_left _ hn), hs.not_up n (List.mem_append_left _ hn)⟩
    · exact List.mem_singleton.mp hn ▸ hl
  refine ⟨init, String.ofList cs, by rw [hlast], ?_, hnames⟩
  rw [← ofText_joinWith (by simp) fun n hn => (hnames n hn).1]
  congr 1
  obtain ⟨front, hfront, hfront'⟩ : ∃ front, Text.joinWith "/" (init ++ [last]) = front ++ ".md" ∧
      Text.joinWith "/" (init ++ [String.ofList cs]) = front := by
    cases init with
    | nil => exact ⟨String.ofList cs, by simp [Text.joinWith, hlast], by simp [Text.joinWith]⟩
    | cons m init =>
        refine ⟨_, ?_, rfl⟩
        rw [Text.joinWith_append (List.cons_ne_nil m init) (List.cons_ne_nil last []),
          Text.joinWith_append (List.cons_ne_nil m init) (List.cons_ne_nil (String.ofList cs) []), hlast]
        simp only [Text.joinWith, String.intercalate_singleton, String.append_assoc]
  rw [hfront, hfront', withoutIntentSuffix, if_pos]
  · rw [Text.dropLastChars, Text.takeChars, String.toList_append, List.length_append]
    simp
  · rw [Text.finishesWith, String.toList_append, List.isPrefixOf_iff_prefix, List.reverse_prefix]
    exact List.suffix_append _ _

end Path

end IntentBuild
