import IntentBuild.Proofs.Operation.Writing

/-!
# Writing many texts

A text can be written at a path that is free (`FileTree.Free`): no directory stands there, no file stands
where a directory above it has to be, and a file that is there already is a text.  Writing it changes no
entry but those on the way to it (`entryAt_of_written`), so another free path
stays free unless one of the two is on the way to the other (`free_of_written`).  The file then reads as
the text, and is left alone just when it did so before (`written_or_left`).

So texts can be written one after another, in any order, at free paths none of which is on the way to
another one (`writeAll_run`).  Where files stand in directories, this is also needed
(`not_prefix_of_writeAll`).
-/

namespace IntentBuild

namespace FileTree

variable {t t' : FileTree} {p q : Path} {k : List String}

/-- A text can be put at the path. -/
structure Free (t : FileTree) (p : Path) : Prop where
  /-- No directory stands there. -/
  notDir : t.entryAt (t.key p) ≠ some .dir
  /-- No file stands in the place of a directory above it. -/
  above : ∀ k, k <+: t.key p → k ≠ t.key p → t.bytesAt? k = none
  /-- A file that is there already is a text. -/
  text : ∀ b, t.bytesAt? (t.key p) = some b → ∃ s, Op.decode b = .ok s

theorem isFileAt_eq (t : FileTree) (k : List String) : t.isFileAt k = (t.bytesAt? k).isSome := by
  unfold isFileAt bytesAt?
  split <;> simp_all

/-- Directories are made where no file is in the way. -/
theorem makeDirs_of_no_file (h : ∀ k, k <+: t.key p → t.bytesAt? k = none) :
    t.makeDirs p = .ok (t.addDirs (t.key p)) := by
  have hfile {k : List String} (hk : k <+: t.key p) : t.isFileAt k = false := by
    rw [isFileAt_eq, h k hk]
    rfl
  have hstarts : (starts (t.key p)).any t.isFileAt = false := List.any_eq_false.mpr fun k hk => by
    rw [hfile (mem_starts.mp (List.mem_append_left _ hk))]
    exact Bool.false_ne_true
  simp only [makeDirs, hfile List.prefix_rfl, hstarts, Bool.false_eq_true, if_false]

/-- What is on the way to the directory of a file is on the way to the file. -/
theorem prefix_of_prefix_parent (hp : p.EndsInName) (hk : k <+: t.key p.parent) :
    k <+: t.key p ∧ k ≠ t.key p := by
  rw [key_parent t hp]
  refine ⟨hk.trans (List.prefix_append _ _), ?_⟩
  rintro rfl
  exact absurd hk.length_le (by simp)

/-- A text can be written at a free path. -/
theorem Free.write (h : t.Free p) (hp : p.EndsInName) (content : Thunk ByteArray) :
    ∃ t' t'', t.makeDirs p.parent = .ok t' ∧ t'.write p content = .ok t'' := by
  have hmake : t.makeDirs p.parent = .ok (t.addDirs (t.key p.parent)) := makeDirs_of_no_file fun k hk =>
    h.above k (prefix_of_prefix_parent hp hk).1 (prefix_of_prefix_parent hp hk).2
  have hkey := key_makeDirs hmake p
  have hdir : (t.addDirs (t.key p.parent)).entryAt ((t.addDirs (t.key p.parent)).key p).dropLast = some .dir := by
    rw [hkey, key_parent t hp, List.dropLast_concat]
    exact entryAt_makeDirs hmake List.prefix_rfl
  have hnotDir : (t.addDirs (t.key p.parent)).entryAt ((t.addDirs (t.key p.parent)).key p) ≠ some .dir := by
    have hnot : ¬ t.key p <+: t.key p.parent := fun hk => (prefix_of_prefix_parent hp hk).2 rfl
    rw [hkey, entryAt_addDirs, if_neg hnot, Option.or_none]
    exact h.notDir
  obtain ⟨t'', hplace⟩ := place_of_ne_dir hdir hnotDir
  exact ⟨_, _, hmake, by rw [FileTree.write, hplace]; rfl⟩

/-- Writing a file changes no entry but those on the way to it. -/
theorem entryAt_write {content : Thunk ByteArray} {t₁ : FileTree} (hp : p.EndsInName)
    (hmake : t.makeDirs p.parent = .ok t₁) (hwrite : t₁.write p content = .ok t') (hk : ¬ k <+: t.key p) :
    t'.entryAt k = t.entryAt k := by
  obtain ⟨t₂, hplace, rfl⟩ := write_eq_ok hwrite
  obtain ⟨rfl, hne⟩ := place_eq_ok hplace
  have hother : k ≠ t₁.key p := fun he => hk (he ▸ key_makeDirs hmake p ▸ List.prefix_rfl)
  have hparent : ¬ k <+: t.key p.parent := fun he => hk (prefix_of_prefix_parent hp he).1
  change (t₁.putAt (t₁.key p) _).entryAt k = _
  rw [entryAt_putAt hne, if_neg hother, makeDirs_eq_ok hmake, entryAt_addDirs, if_neg hparent, Option.or_none]

/-- Where files stand in directories, none is on the way to another one. -/
theorem Housed.eq_of_prefix {k' : List String} (h : t.Housed) (hk : (t.bytesAt? k).isSome)
    (hk' : (t.bytesAt? k').isSome) (hpre : k <+: k') : k = k' := by
  refine Classical.byContradiction fun hne => ?_
  have hthere : (t.entryAt k').isSome := by
    rw [bytesAt?] at hk'
    split at hk'
    · exact Option.isSome_of_eq_some ‹_›
    · cases hk'
  rw [bytesAt?, h k' hthere k hpre hne] at hk
  cases hk

end FileTree

namespace Op

variable {w w' : Workspace} {p q : Path} {text : String} {k : List String}

/-- A text is put at a path in directories that are made. -/
def put (p : Path) (text : String) : Op Bool := do
  makeDirs p.parent
  setFiles (← lift .file ((← files).write p (FileTree.textContent text)))
  return true

theorem put_eq_ok {b : Bool} (h : (put p text).run w = .ok b w') :
    b = true ∧ ∃ t t', w.files.makeDirs p.parent = .ok t ∧
      t.write p (FileTree.textContent text) = .ok t' ∧ w' = { w with files := t' } := by
  obtain ⟨u, w₁, hdirs, h⟩ := bind_eq_ok.mp h
  obtain ⟨t, hmake, rfl⟩ := makeDirs_eq_ok hdirs
  obtain ⟨t₁, w₂, ht₁, h⟩ := bind_eq_ok.mp h
  cases ht₁
  obtain ⟨t', w₂, ht', h⟩ := bind_eq_ok.mp h
  cases hwrite : t.write p (FileTree.textContent text) with
  | error e => rw [hwrite] at ht'; cases ht'
  | ok t₂ =>
      rw [hwrite] at ht'
      cases ht'
      cases h
      exact ⟨rfl, t, t', hmake, hwrite, rfl⟩

theorem put_run {t t' : FileTree} (hmake : w.files.makeDirs p.parent = .ok t)
    (hwrite : t.write p (FileTree.textContent text) = .ok t') :
    (put p text).run w = .ok true { w with files := t' } := by
  have hfiles : files.run { w with files := t } = .ok t { w with files := t } := rfl
  rw [put, bind_ok (makeDirs_run hmake), bind_ok hfiles, hwrite, bind_ok (lift_ok ..)]
  rfl

/-- A text is put where no file is. -/
theorem writeIfChanged_of_no_file (h : w.files.isFile p = false) :
    (writeIfChanged p text).run w = (put p text).run w := by
  have hfile : (isFile p).run w = .ok false w := by rw [← h]; rfl
  rw [writeIfChanged, bind_ok hfile]
  rfl

/-- Where a text is, another text is put. -/
theorem writeIfChanged_of_text {s : String} (h : (readText p).run w = .ok s w) :
    (writeIfChanged p text).run w = if s = text then .ok false w else (put p text).run w := by
  obtain ⟨-, bytes, hbytes, -⟩ := readText_eq_ok h
  have hfile : (isFile p).run w = .ok true w := by
    rw [← FileTree.isFile_iff.mpr ⟨bytes, hbytes⟩]
    rfl
  have hsame : (pure (s == text) : Op Bool).run w = .ok (s == text) w := rfl
  rw [writeIfChanged, bind_ok hfile, if_pos rfl, bind_ok h, bind_ok hsame]
  by_cases heq : s = text
  · rw [if_pos heq, heq, beq_self_eq_true]
    rfl
  · rw [if_neg heq, beq_false_of_ne heq]
    rfl

/-- A text that is written is there already, and nothing changes, or it is not there yet and is put
there. -/
theorem left_or_put {b : Bool} (h : (writeIfChanged p text).run w = .ok b w') :
    (b = false ∧ w' = w ∧ (readText p).run w = .ok text w) ∨
      (b = true ∧ (put p text).run w = .ok b w' ∧ (readText p).run w ≠ .ok text w) := by
  cases hf : w.files.isFile p with
  | false =>
      rw [writeIfChanged_of_no_file hf] at h
      refine .inr ⟨(put_eq_ok h).1, h, fun hread => ?_⟩
      obtain ⟨-, bytes, hbytes, -⟩ := readText_eq_ok hread
      exact absurd (FileTree.isFile_iff.mpr ⟨bytes, hbytes⟩) (by simp [hf])
  | true =>
      have hfile : (isFile p).run w = .ok true w := by rw [← hf]; rfl
      have hread := h
      rw [writeIfChanged, bind_ok hfile, if_pos rfl] at hread
      obtain ⟨s, w₁, hs, -⟩ := bind_eq_ok.mp hread
      obtain ⟨rfl, -⟩ := readText_eq_ok hs
      rw [writeIfChanged_of_text hs] at h
      split at h
      · rename_i heq
        cases h
        exact .inl ⟨rfl, rfl, heq ▸ hs⟩
      · rename_i hne
        refine .inr ⟨(put_eq_ok h).1, h, fun hread => hne ?_⟩
        rw [hs] at hread
        cases hread
        rfl

/-- A text that is written if it is not there is there already, or is put there. -/
theorem written_cases {b : Bool} (h : (writeIfChanged p text).run w = .ok b w') :
    w' = w ∨ ∃ t t', w.files.makeDirs p.parent = .ok t ∧ t.write p (FileTree.textContent text) = .ok t' ∧
      w' = { w with files := t' } := by
  obtain ⟨-, hsame, -⟩ | ⟨-, hput, -⟩ := left_or_put h
  · exact .inl hsame
  · exact .inr (put_eq_ok hput).2

/-- A text can be written at a free path. -/
theorem writeIfChanged_of_free (hp : p.EndsInName) (h : w.files.Free p) (text : String) :
    ∃ b w', (writeIfChanged p text).run w = .ok b w' := by
  obtain ⟨t, t', hmake, hwrite⟩ := h.write hp (FileTree.textContent text)
  have hput := put_run hmake hwrite
  cases hf : w.files.isFile p with
  | false => exact ⟨_, _, (writeIfChanged_of_no_file hf).trans hput⟩
  | true =>
      obtain ⟨bytes, hbytes⟩ := FileTree.isFile_iff.mp hf
      obtain ⟨s, hs⟩ := h.text bytes hbytes
      rw [writeIfChanged_of_text (readText_run hbytes hs)]
      split
      · exact ⟨_, _, rfl⟩
      · exact ⟨_, _, hput⟩

/-- A text that is written changes no entry but those on the way to it. -/
theorem entryAt_of_written {b : Bool} (hp : p.EndsInName) (h : (writeIfChanged p text).run w = .ok b w')
    (hk : ¬ k <+: w.files.key p) : w'.files.entryAt k = w.files.entryAt k := by
  obtain rfl | ⟨t, t', hmake, hwrite, rfl⟩ := written_cases h
  · rfl
  · exact FileTree.entryAt_write hp hmake hwrite hk

theorem housed_of_written {b : Bool} (hw : w.files.Housed) (h : (writeIfChanged p text).run w = .ok b w') :
    w'.files.Housed := by
  obtain rfl | ⟨t, t', hmake, hwrite, rfl⟩ := written_cases h
  · exact hw
  · exact (hw.makeDirs hmake).write hwrite

/-- Two rows of names neither of which is on the way to the other. -/
def Aside (k k' : List String) : Prop := ¬ k <+: k' ∧ ¬ k' <+: k

/-- A free path stays free where a text is written aside of it. -/
theorem free_of_written {b : Bool} (hp : p.EndsInName) (h : (writeIfChanged p text).run w = .ok b w')
    (hq : w.files.Free q) (haside : Aside (w.files.key p) (w.files.key q)) : w'.files.Free q := by
  have hentry := entryAt_of_written hp h haside.2
  obtain ⟨t, rfl, hwrote⟩ := writeIfChanged_eq_ok h
  have hkey : t.key q = w.files.key q := FileTree.key_congr hwrote.workingDirectory q
  have hbytes {k : List String} (hk : k <+: w.files.key q) : t.bytesAt? k = w.files.bytesAt? k :=
    hwrote.other k fun he => haside.1 (he ▸ hk)
  exact
    { notDir := by
        change t.entryAt (t.key q) ≠ _
        rw [hkey, hentry]
        exact hq.notDir
      above := fun k hk hne => by
        change t.bytesAt? k = none
        rw [hkey] at hk hne
        rw [hbytes hk]
        exact hq.above k hk hne
      text := fun b hb => by
        change t.bytesAt? (t.key q) = some b at hb
        rw [hkey, hbytes List.prefix_rfl] at hb
        exact hq.text b hb }

/-! ## Many texts -/

/-- The file at the path reads as the text, with its line breaks unified. -/
def Reads (w : Workspace) (p : Path) (text : String) : Prop :=
  (readText p).run w = .ok (Text.unifyLineBreaks text) w

theorem reads_of_written {b : Bool} (h : (writeIfChanged p text).run w = .ok b w') : Reads w' p text := by
  obtain ⟨t, rfl, hwrote⟩ := writeIfChanged_eq_ok h
  obtain ⟨bytes, hbytes, hdecode⟩ := hwrote.bytes
  rw [← FileTree.key_congr hwrote.workingDirectory] at hbytes
  exact readText_run hbytes hdecode

/-- What becomes of a file when a text is written to it: the file reads as the text.  It is left alone
just when it did so before, and holds exactly the text otherwise.  A second time nothing is
written, unless the text has carriage returns: such a text is written every time, as no file reads as it. -/
theorem written_or_left (hp : p.EndsInName) (h : w.files.Free p) (text : String) :
    ∃ b w', (writeIfChanged p text).run w = .ok b w' ∧ Reads w' p text ∧
      (b = false ↔ (readText p).run w = .ok text w) ∧ (b = false → w' = w) ∧
      (b = true → w'.files.bytesAt? (w'.files.key p) = some text.toUTF8) ∧
      ((writeIfChanged p text).run w' = .ok false w' ↔ '\r' ∉ text.toList) := by
  obtain ⟨b, w', hrun⟩ := writeIfChanged_of_free hp h text
  have hreads := reads_of_written hrun
  have hagain : (writeIfChanged p text).run w' = .ok false w' ↔ '\r' ∉ text.toList := by
    refine ⟨fun hfalse => ?_, fun hreturn => ?_⟩
    · obtain ⟨-, -, htext⟩ | ⟨h, -⟩ := left_or_put hfalse
      · obtain ⟨-, bytes, -, hdecode⟩ := readText_eq_ok htext
        exact return_not_mem_of_decode hdecode
      · cases h
    · rw [writeIfChanged_of_text hreads, if_pos (Text.unifyLineBreaks_eq hreturn)]
  refine ⟨b, w', hrun, hreads, ?_⟩
  obtain ⟨rfl, rfl, htext⟩ | ⟨rfl, hput, hother⟩ := left_or_put hrun
  · exact ⟨⟨fun _ => htext, fun _ => rfl⟩, fun _ => rfl, nofun, hagain⟩
  · refine ⟨⟨nofun, fun htext => absurd htext hother⟩, nofun, fun _ => ?_, hagain⟩
    obtain ⟨-, t, t', -, hwrite, rfl⟩ := put_eq_ok hput
    change t'.bytesAt? (t'.key p) = _
    rw [FileTree.key_write hwrite, FileTree.bytesAt?_write hwrite, if_pos rfl]
    rfl

/-- A workspace with one file, whose line ends in a carriage return and a line feed. -/
def returned : Workspace where
  files := (FileTree.empty (.ofText "/") 0 1).putAt ["f.txt"] (.file (FileTree.textContent "a\r\n") 0)
  graph := { root := .ofText "/", instanceId := "default" }
  supply := { nextId := 0, nextTime := 0 }

/-- The file is left alone with its carriage return when the text without it is written, and its own text
is written every time. -/
theorem written_or_left_returned :
    (writeIfChanged (.ofText "/f.txt") "a\n").run returned = .ok false returned ∧
    ∃ b w', (writeIfChanged (.ofText "/f.txt") "a\r\n").run returned = .ok b w' ∧ b = true ∧
      (writeIfChanged (.ofText "/f.txt") "a\r\n").run w' ≠ .ok false w' := by
  have hkey : returned.files.key (.ofText "/f.txt") = ["f.txt"] := by decide +kernel
  have hname : (Path.ofText "/f.txt").EndsInName := ⟨by decide +kernel, by decide +kernel⟩
  have hbytes : returned.files.bytesAt? ["f.txt"] = some "a\r\n".toUTF8 := by
    rw [FileTree.bytesAt?, returned, FileTree.entryAt_putAt (List.cons_ne_nil _ _), if_pos rfl]
    rfl
  have hread : (readText (.ofText "/f.txt")).run returned = .ok "a\n" returned :=
    readText_run (hkey ▸ hbytes) (decode_toUTF8 _)
  have hfree : returned.files.Free (.ofText "/f.txt") := by
    refine ⟨?_, fun k hk hne => ?_, fun b hb => ?_⟩
    · rw [hkey, returned, FileTree.entryAt_putAt (List.cons_ne_nil _ _), if_pos rfl]
      rintro ⟨⟩
    · rw [hkey] at hk hne
      rcases List.prefix_cons_iff.mp hk with rfl | ⟨t, rfl, ht⟩
      · rfl
      · exact absurd (by rw [List.prefix_nil.mp ht]) hne
    · rw [hkey, hbytes, Option.some.injEq] at hb
      exact ⟨_, hb ▸ decode_toUTF8 _⟩
  obtain ⟨b, w', hrun, -, hleft, hsame, -⟩ := written_or_left hname hfree "a\n"
  obtain ⟨c, w'', hrun', -, hwritten, -, -, hagain⟩ := written_or_left hname hfree "a\r\n"
  obtain rfl := hleft.mpr hread
  obtain rfl := hsame rfl
  refine ⟨hrun, c, w'', hrun', Bool.of_not_eq_false fun hc => ?_, fun h => hagain.mp h (by decide)⟩
  have htexts := hread.symm.trans (hwritten.mp hc)
  rw [EStateM.Result.ok.injEq] at htexts
  exact absurd htexts.1 (by decide)

/-- Another text that is written leaves what a file reads as alone. -/
theorem Reads.written {text' : String} {b : Bool} (hr : Reads w q text')
    (h : (writeIfChanged p text).run w = .ok b w') (hne : w.files.key q ≠ w.files.key p) : Reads w' q text' := by
  obtain ⟨-, bytes, hbytes, hdecode⟩ := readText_eq_ok hr
  obtain ⟨t, rfl, hwrote⟩ := writeIfChanged_eq_ok h
  refine readText_run ?_ hdecode
  change t.bytesAt? (t.key q) = _
  rw [FileTree.key_congr hwrote.workingDirectory, hwrote.other _ hne, hbytes]

theorem key_of_written {b : Bool} (h : (writeIfChanged p text).run w = .ok b w') (q : Path) :
    w'.files.key q = w.files.key q := by
  obtain ⟨t, rfl, hwrote⟩ := writeIfChanged_eq_ok h
  exact FileTree.key_congr hwrote.workingDirectory q

/-- Texts that are written, one after another. -/
def writeAll (es : List (Path × String)) : Op (List Bool) := es.mapM fun e => writeIfChanged e.1 e.2

theorem writeAll_cons {e : Path × String} {es : List (Path × String)} {bs : List Bool} :
    (writeAll (e :: es)).run w = .ok bs w' ↔ ∃ b w₁ bs', (writeIfChanged e.1 e.2).run w = .ok b w₁ ∧
      (writeAll es).run w₁ = .ok bs' w' ∧ bs = b :: bs' := by
  rw [writeAll, List.mapM_cons]
  constructor
  · intro h
    obtain ⟨b, w₁, hb, h⟩ := bind_eq_ok.mp h
    obtain ⟨bs', w₂, hbs, h⟩ := bind_eq_ok.mp h
    cases h
    exact ⟨b, w₁, bs', hb, hbs, rfl⟩
  · rintro ⟨b, w₁, bs', hb, hbs, rfl⟩
    exact bind_eq_ok.mpr ⟨b, w₁, hb, bind_eq_ok.mpr ⟨bs', w', hbs, rfl⟩⟩

/-- What a file reads as stays while texts are written elsewhere. -/
theorem Reads.writeAll {es : List (Path × String)} {text' : String} {bs : List Bool} (hr : Reads w q text')
    (h : (writeAll es).run w = .ok bs w') (hne : ∀ e ∈ es, w.files.key q ≠ w.files.key e.1) :
    Reads w' q text' := by
  induction es generalizing w bs with
  | nil => cases h; exact hr
  | cons e es ih =>
      obtain ⟨hfirst, hrest⟩ := List.forall_mem_cons.mp hne
      obtain ⟨b, w₁, bs', hb, hbs, -⟩ := writeAll_cons.mp h
      refine ih (hr.written hb hfirst) hbs fun e' he' => ?_
      rw [key_of_written hb, key_of_written hb]
      exact hrest e' he'

/-- Texts can be written at free paths of which each is aside of the others, and all can be read after. -/
theorem writeAll_run {es : List (Path × String)} (hname : ∀ e ∈ es, e.1.EndsInName)
    (hfree : ∀ e ∈ es, w.files.Free e.1)
    (haside : es.Pairwise fun e e' => Aside (w.files.key e.1) (w.files.key e'.1)) :
    ∃ bs w', (writeAll es).run w = .ok bs w' ∧ ∀ e ∈ es, Reads w' e.1 e.2 := by
  induction es generalizing w with
  | nil => exact ⟨[], w, rfl, nofun⟩
  | cons e es ih =>
      obtain ⟨hename, hesname⟩ := List.forall_mem_cons.mp hname
      obtain ⟨hefree, hesfree⟩ := List.forall_mem_cons.mp hfree
      obtain ⟨heaside, hesaside⟩ := List.pairwise_cons.mp haside
      obtain ⟨b, w₁, hb⟩ := writeIfChanged_of_free hename hefree e.2
      obtain ⟨bs, w', hbs, hreads⟩ := ih (w := w₁) hesname
        (fun e' he' => free_of_written hename hb (hesfree e' he') (heaside e' he'))
        (hesaside.imp fun h => by rwa [key_of_written hb, key_of_written hb])
      refine ⟨_, w', writeAll_cons.mpr ⟨b, w₁, bs, hb, hbs, rfl⟩, List.forall_mem_cons.mpr ⟨?_, hreads⟩⟩
      refine (reads_of_written hb).writeAll hbs fun e' he' hkey => ?_
      rw [key_of_written hb, key_of_written hb] at hkey
      exact (heaside e' he').1 (hkey ▸ List.prefix_rfl)

/-- A file stays while texts are written. -/
theorem file_of_writeAll {es : List (Path × String)} {bs : List Bool} (h : (writeAll es).run w = .ok bs w')
    (hk : (w.files.bytesAt? k).isSome) : (w'.files.bytesAt? k).isSome := by
  induction es generalizing w bs with
  | nil => cases h; exact hk
  | cons e es ih =>
      obtain ⟨b, w₁, bs', hb, hbs, -⟩ := writeAll_cons.mp h
      refine ih hbs ?_
      obtain ⟨t, rfl, hwrote⟩ := writeIfChanged_eq_ok hb
      by_cases hkey : k = w.files.key e.1
      · obtain ⟨bytes, hbytes, -⟩ := hwrote.bytes
        exact Option.isSome_of_eq_some (hkey ▸ hbytes)
      · exact (hwrote.other k hkey).symm ▸ hk

/-- The files that were written are there, and they stand in directories. -/
theorem files_of_writeAll {es : List (Path × String)} {bs : List Bool} (hw : w.files.Housed)
    (h : (writeAll es).run w = .ok bs w') :
    w'.files.Housed ∧ ∀ e ∈ es, (w'.files.bytesAt? (w.files.key e.1)).isSome := by
  induction es generalizing w bs with
  | nil => cases h; exact ⟨hw, nofun⟩
  | cons e es ih =>
      obtain ⟨b, w₁, bs', hb, hbs, -⟩ := writeAll_cons.mp h
      obtain ⟨hhoused, hfiles⟩ := ih (housed_of_written hw hb) hbs
      refine ⟨hhoused, List.forall_mem_cons.mpr ⟨file_of_writeAll hbs ?_, fun e' he' => ?_⟩⟩
      · obtain ⟨t, rfl, hwrote⟩ := writeIfChanged_eq_ok hb
        obtain ⟨bytes, hbytes, -⟩ := hwrote.bytes
        exact Option.isSome_of_eq_some hbytes
      · exact key_of_written hb e'.1 ▸ hfiles e' he'

/-- Where files stand in directories, of the paths at which texts were written none is on the way to another
one. -/
theorem not_prefix_of_writeAll {es : List (Path × String)} {bs : List Bool} (hw : w.files.Housed)
    (h : (writeAll es).run w = .ok bs w') {e e' : Path × String} (he : e ∈ es) (he' : e' ∈ es)
    (hne : w.files.key e.1 ≠ w.files.key e'.1) : ¬ w.files.key e.1 <+: w.files.key e'.1 := by
  obtain ⟨hhoused, hfiles⟩ := files_of_writeAll hw h
  exact fun hpre => hne (hhoused.eq_of_prefix (hfiles e he) (hfiles e' he') hpre)

end Op

end IntentBuild
