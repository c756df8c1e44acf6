import IntentBuild.Proofs.Files.Housed
import IntentBuild.Proofs.Files.Tree
import IntentBuild.Proofs.Operation.Outcome
import IntentBuild.Proofs.Text.LineBreaks

/-!
# Writing texts and the graph

After `writeIfChanged` the file at the path reads as the text with its line breaks unified, whether
it was written or left alone, and no other file has changed (`writeIfChanged_eq_ok`).

Whether the document of the graph can be written (`Workspace.Writable`) depends on the files alone,
and where it can be written, a transaction whose body succeeds succeeds (`transaction_run`).  A
transaction whose body never fails fails only at its end, and only where the document cannot be written
(`Ends.transaction_sure`).
-/

namespace IntentBuild

/-- The second tree has the text at the path, and all other files are as in the first one. -/
structure FileTree.Wrote (t t' : FileTree) (p : Path) (text : String) : Prop where
  /-- Paths lead to the same places. -/
  workingDirectory : t'.workingDirectory = t.workingDirectory
  /-- Other files are as they were. -/
  other : ∀ k, k ≠ t.key p → t'.bytesAt? k = t.bytesAt? k
  /-- The file reads as the text. -/
  bytes : ∃ b, t'.bytesAt? (t.key p) = some b ∧ Op.decode b = .ok (Text.unifyLineBreaks text)

namespace Op

variable {w w' : Workspace}

theorem decode_toUTF8 (s : String) : decode s.toUTF8 = .ok (Text.unifyLineBreaks s) := by
  have h : String.fromUTF8? s.toUTF8 = some s := by
    rw [String.fromUTF8?, dif_pos (show s.toUTF8.IsValidUTF8 from s.isValidUTF8)]
    rfl
  rw [decode, h]

/-- Decoded bytes have no carriage return. -/
theorem return_not_mem_of_decode {b : ByteArray} {s : String} (h : decode b = .ok s) :
    '\r' ∉ s.toList := by
  unfold decode at h
  split at h
  · cases h
    exact Text.return_not_mem_unifyLineBreaks _
  · cases h

theorem readText_eq_ok {p : Path} {s : String} (h : (readText p).run w = .ok s w') :
    w' = w ∧ ∃ b, w.files.bytesAt? (w.files.key p) = some b ∧ decode b = .ok s := by
  refine ⟨(reader_readText p).eq h, ?_⟩
  obtain ⟨t, w₁, ht, h⟩ := bind_eq_ok.mp h
  cases ht
  obtain ⟨b, w₂, hb, h⟩ := bind_eq_ok.mp h
  cases hr : w.files.readBytes p with
  | error e => rw [hr] at hb; cases hb
  | ok b' =>
      rw [hr] at hb
      cases hb
      refine ⟨b, FileTree.readBytes_eq_ok.mp hr, ?_⟩
      cases hd : decode b with
      | error e => rw [hd] at h; cases h
      | ok s' => rw [hd] at h; cases h; rfl

theorem readText_run {p : Path} {b : ByteArray} {s : String}
    (hb : w.files.bytesAt? (w.files.key p) = some b) (hs : decode b = .ok s) :
    (readText p).run w = .ok s w := by
  have hr : w.files.readBytes p = .ok b := FileTree.readBytes_eq_ok.mpr hb
  have hfiles : files.run w = .ok w.files w := rfl
  rw [readText, bind_ok hfiles, hr, bind_ok (lift_ok ..), hs]
  rfl

theorem makeDirs_eq_ok {p : Path} (h : (makeDirs p).run w = .ok ⟨⟩ w') :
    ∃ t, w.files.makeDirs p = .ok t ∧ w' = { w with files := t } := by
  obtain ⟨t, w₁, ht, h⟩ := bind_eq_ok.mp h
  cases ht
  obtain ⟨t', w₂, ht', h⟩ := bind_eq_ok.mp h
  cases hm : w.files.makeDirs p with
  | error e => rw [hm] at ht'; cases ht'
  | ok t => rw [hm] at ht'; cases ht'; cases h; exact ⟨_, rfl, rfl⟩

theorem makeDirs_run {p : Path} {t : FileTree} (h : w.files.makeDirs p = .ok t) :
    (makeDirs p).run w = .ok ⟨⟩ { w with files := t } := by
  have hfiles : files.run w = .ok w.files w := rfl
  rw [makeDirs, bind_ok hfiles, h, bind_ok (lift_ok ..)]
  rfl

/-- A text that is written. -/
theorem wrote_of_write {p : Path} {text : String} {b : Bool}
    (h : (do
      makeDirs p.parent
      setFiles (← lift .file ((← files).write p (FileTree.textContent text)))
      return true : Op Bool).run w = .ok b w') :
    ∃ t, w' = { w with files := t } ∧ w.files.Wrote t p text := by
  obtain ⟨u, w₁, hdirs, h⟩ := bind_eq_ok.mp h
  obtain ⟨t, hm, rfl⟩ := makeDirs_eq_ok hdirs
  obtain ⟨t', w₂, ht', h⟩ := bind_eq_ok.mp h
  cases ht'
  obtain ⟨t', w₂, ht', h⟩ := bind_eq_ok.mp h
  cases hwrite : t.write p (FileTree.textContent text) with
  | error e => rw [hwrite] at ht'; cases ht'
  | ok t₁ =>
      rw [hwrite] at ht'
      cases ht'
      cases h
      have hkey := FileTree.key_makeDirs hm p
      have hdir := FileTree.makeDirs_eq_ok hm
      refine ⟨t', rfl, ?_, ?_, text.toUTF8, ?_, decode_toUTF8 text⟩
      · rw [FileTree.workingDirectory_write hwrite, hdir, FileTree.workingDirectory_addDirs]
      · intro k hk
        rw [FileTree.bytesAt?_write hwrite, hkey, if_neg hk, hdir, FileTree.bytesAt?_addDirs]
      · rw [FileTree.bytesAt?_write hwrite, hkey, if_pos rfl]
        rfl

/-- The file has the text, and nothing else is changed. -/
theorem writeIfChanged_eq_ok {p : Path} {text : String} {b : Bool}
    (h : (writeIfChanged p text).run w = .ok b w') :
    ∃ t, w' = { w with files := t } ∧ w.files.Wrote t p text := by
  obtain ⟨found, w₁, hfound, h⟩ := bind_eq_ok.mp h
  cases hfound
  cases hf : w.files.isFile p with
  | false => rw [hf] at h; exact wrote_of_write h
  | true =>
      rw [hf, if_pos rfl] at h
      obtain ⟨s, w₂, hs, hrest⟩ := bind_eq_ok.mp h
      obtain ⟨rfl, bytes, hb, hd⟩ := readText_eq_ok hs
      by_cases heq : s = text
      · subst heq
        simp only [beq_self_eq_true] at hrest
        cases hrest
        refine ⟨w'.files, rfl, rfl, fun _ _ => rfl, bytes, hb, ?_⟩
        rw [hd, Text.unifyLineBreaks_eq (return_not_mem_of_decode hd)]
      · rw [beq_false_of_ne heq] at hrest
        exact wrote_of_write hrest

/-- A file that is written is there. -/
theorem isFile_of_written {p : Path} {text : String} {b : Bool}
    (h : (writeIfChanged p text).run w = .ok b w') : w'.files.isFile p = true := by
  obtain ⟨t, rfl, hwrote⟩ := writeIfChanged_eq_ok h
  obtain ⟨bytes, hbytes, -⟩ := hwrote.bytes
  rw [← FileTree.key_congr hwrote.workingDirectory] at hbytes
  exact FileTree.isFile_iff.mpr ⟨bytes, hbytes⟩

/-- It reads as the text, if this has no carriage return. -/
theorem readText_of_written {p : Path} {text : String} {b : Bool} (hreturn : '\r' ∉ text.toList)
    (h : (writeIfChanged p text).run w = .ok b w') : (readText p).run w' = .ok text w' := by
  obtain ⟨t, rfl, hwrote⟩ := writeIfChanged_eq_ok h
  obtain ⟨bytes, hbytes, hdecode⟩ := hwrote.bytes
  rw [← FileTree.key_congr hwrote.workingDirectory] at hbytes
  rw [Text.unifyLineBreaks_eq hreturn] at hdecode
  exact readText_run hbytes hdecode

/-- In a tree that is in order, a file that can be read can be written. -/
theorem writeIfChanged_run {p : Path} {s : String} (ht : w.files.Housed) (hp : p.EndsInName)
    (hs : (readText p).run w = .ok s w) (text : String) :
    ∃ b w', (writeIfChanged p text).run w = .ok b w' := by
  obtain ⟨-, bytes, hb, -⟩ := readText_eq_ok hs
  have hf : w.files.isFile p = true := FileTree.isFile_iff.mpr ⟨bytes, hb⟩
  have hfile : (isFile p).run w = .ok true w := by rw [← hf]; rfl
  have hsame : (pure (s == text) : Op Bool).run w = .ok (s == text) w := rfl
  rw [writeIfChanged, bind_ok hfile, if_pos rfl, bind_ok hs, bind_ok hsame]
  by_cases heq : s = text
  · exact ⟨false, w, by simp [heq]⟩
  · have hentry : (w.files.entry? p).isSome := by
      unfold FileTree.isFile at hf
      split at hf
      · rename_i h
        rw [h]
        rfl
      · cases hf
    obtain ⟨t, hwrite⟩ := FileTree.write_of_isFile hf (FileTree.textContent text)
    have hfiles : files.run w = .ok w.files w := rfl
    rw [beq_false_of_ne heq]
    dsimp only
    rw [if_neg Bool.false_ne_true,
      bind_ok (makeDirs_run (FileTree.makeDirs_parent ht hp hentry)), bind_ok hfiles, hwrite,
      bind_ok (lift_ok ..)]
    exact ⟨true, _, rfl⟩

/-! ## Writing the graph -/

/-- The directory of the document is made, and the document is placed in it. -/
theorem save_eq_ok : save.run w = .ok ⟨⟩ w' ↔
    ∃ t t', w.files.makeDirs w.graph.root = .ok t ∧
      t.place (documentPath w.graph) (Thunk.mk fun _ => w.graph.tables.document.toUTF8) t.nextTick =
        .ok t' ∧ w' = { w with files := t', graph := { w.graph with unsaved := false } } := by
  have hget : (get : Op Workspace).run w = .ok w w := rfl
  constructor
  · intro h
    rw [save, bind_ok hget] at h
    obtain ⟨u, w₁, hdirs, h₁⟩ := bind_eq_ok.mp h
    obtain ⟨t, hm, rfl⟩ := makeDirs_eq_ok hdirs
    obtain ⟨t₁, w₂, hfiles, h₂⟩ := bind_eq_ok.mp h₁
    cases hfiles
    obtain ⟨t', w₃, hlift, h₃⟩ := bind_eq_ok.mp h₂
    refine ⟨t, ?_⟩
    cases hp : t.place (documentPath w.graph)
        (Thunk.mk fun _ => w.graph.tables.document.toUTF8) t.nextTick with
    | error e => rw [hp] at hlift; cases hlift
    | ok t₂ =>
        rw [hp] at hlift
        cases hlift
        cases h₃
        exact ⟨t', hm, rfl, rfl⟩
  · rintro ⟨t, t', hm, hp, rfl⟩
    have hfiles : files.run { w with files := t } = .ok t { w with files := t } := rfl
    rw [save, bind_ok hget, bind_ok (makeDirs_run hm), bind_ok hfiles, hp, bind_ok (lift_ok ..)]
    rfl

end Op

namespace FileTree

/-- Whether a file can be placed does not depend on its content. -/
theorem place_of_place {t t' : FileTree} {p : Path} {content content' : Thunk ByteArray}
    {changed : Int} (h : t.place p content changed = .ok t') :
    t.place p content' changed = .ok (t.putAt (t.key p) (.file content' changed)) := by
  unfold place at h ⊢
  dsimp only at h ⊢
  split at h
  · cases h
  · rfl
  · split at h
    · rfl
    · cases h

end FileTree

namespace Workspace

/-- Only the files and the place of the document count. -/
theorem Writable.congr {w w' : Workspace} (h : w.Writable) (hf : w'.files = w.files)
    (hr : w'.graph.root = w.graph.root) : w'.Writable := by
  obtain ⟨w₁, h⟩ := h
  obtain ⟨t, t', hm, hp, -⟩ := Op.save_eq_ok.mp h
  have hpath : Op.documentPath w'.graph = Op.documentPath w.graph := by
    rw [Op.documentPath, Op.documentPath, hr]
  exact ⟨_, Op.save_eq_ok.mpr ⟨t, _, by rw [hf, hr]; exact hm,
    by rw [hpath]; exact FileTree.place_of_place hp, rfl⟩⟩

end Workspace

namespace Op

variable {α : Type} {w w₁ : Workspace}

/-- A transaction ends where the document can be written if something is left to write. -/
theorem endTransaction_run (hs : w.graph.unsaved = true → w.Writable) :
    ∃ w', endTransaction.run w = .ok ⟨⟩ w' := by
  rw [endTransaction_eq]
  split
  · rename_i h
    exact (hs h.2).congr rfl rfl
  · exact ⟨_, rfl⟩

/-- A transaction that ends gives what the operation in it gives. -/
theorem transaction_run {x : Op α} {a : α} (hx : x.run (w.atDepth (w.graph.depth + 1)) = .ok a w₁)
    (hs : w₁.graph.unsaved = true → w₁.Writable) :
    ∃ w', (Op.transaction x).run w = .ok a w' := by
  obtain ⟨w', hw'⟩ := endTransaction_run hs
  refine ⟨w', ?_⟩
  rw [transaction_eq, hx]
  dsimp only
  rw [hw']

/-- Where the document could not be written, it cannot be written after the attempt. -/
theorem not_writable_of_save {e : Failure} {w' : Workspace} (h : save.run w = .error e w') :
    ¬ w'.Writable := by
  have hget : (get : Op Workspace).run w = .ok w w := rfl
  have hfiles (v : Workspace) : files.run v = .ok v.files v := rfl
  rw [save, bind_ok hget] at h
  cases hm : w.files.makeDirs w.graph.root with
  | error f =>
      have hdirs : (makeDirs w.graph.root).run w = .error (.file f) w := by
        rw [makeDirs, bind_ok (hfiles w), hm]
        rfl
      rw [bind_error hdirs] at h
      cases h
      rintro ⟨v, hv⟩
      obtain ⟨t, -, ht, -⟩ := save_eq_ok.mp hv
      rw [hm] at ht
      cases ht
  | ok t =>
      rw [bind_ok (makeDirs_run hm), bind_ok (hfiles _)] at h
      cases hp : t.place (documentPath w.graph)
          (Thunk.mk fun _ => w.graph.tables.document.toUTF8) t.nextTick with
      | ok t' =>
          rw [hp, bind_ok (lift_ok ..)] at h
          cases h
      | error f =>
          rw [hp, bind_error (lift_error ..)] at h
          cases h
          rintro ⟨v, hv⟩
          obtain ⟨t₁, t₂, hm', hp', -⟩ := save_eq_ok.mp hv
          -- The directories were made by the attempt, so the file is placed in the same tree.
          have hdirs : t.makeDirs w.graph.root = .ok t := FileTree.makeDirs_of_dirs fun k hk =>
            FileTree.entryAt_makeDirs hm (FileTree.key_makeDirs hm w.graph.root ▸ hk)
          have hsame : t₁ = t := Except.ok.inj (hm'.symm.trans hdirs)
          rw [hsame] at hp'
          exact nomatch hp.symm.trans hp'

theorem not_writable_of_endTransaction {e : Failure} {w' : Workspace}
    (h : endTransaction.run w = .error e w') : ¬ w'.Writable := by
  rw [endTransaction_eq] at h
  split at h
  · exact not_writable_of_save h
  · cases h

/-- A transaction whose body never fails fails only at its end, where it is the outermost one and the
document cannot be written.  Then the body has done its work all the same. -/
theorem Ends.transaction_sure {x : Op α} {Q : α → Workspace → Prop} (hQ : Calm Q)
    (hx : ∀ w', w'.Sound → Reach Event.None w w' → w'.graph.depth = w.graph.depth + 1 →
      Ends w' x Q fun _ => False) :
    Ends w (Op.transaction x) Q fun w' =>
      w.graph.depth = 0 ∧ ¬ w'.Writable ∧ ∃ a, Q a w' := by
  intro hw
  have hr : Reach Event.None w (w.atDepth (w.graph.depth + 1)) :=
    .quiet (e := .depth) trivial (.depth w _)
  have hw₁ := hr.sound hw
  have hbody := hx _ hw₁ hr rfl hw₁
  rw [transaction_eq]
  cases hxw : x.run (w.atDepth (w.graph.depth + 1)) with
  | error e w' =>
      rw [hxw] at hbody
      exact hbody.2.elim
  | ok a w' =>
      rw [hxw] at hbody
      obtain ⟨⟨hreach, hdepth⟩, hq⟩ := hbody
      have hdepth : w'.graph.depth = w.graph.depth + 1 := hdepth
      have hkeeps {w'' : Workspace} (hq : Reach Event.None w' w'')
          (hd : w''.graph.depth = w'.graph.depth - 1) : Keeps w w'' :=
        ⟨(hr.of_quiet.trans hreach).trans hq.of_quiet, by omega⟩
      rcases endTransaction_ended (hreach.sound hw₁) with
        ⟨w'', he, hquiet, hd⟩ | ⟨e, w'', he, hquiet, hd, h0⟩
      · simp only [he]
        exact ⟨hkeeps hquiet hd, hQ hquiet hq⟩
      · simp only [he]
        exact ⟨hkeeps hquiet hd, by omega, not_writable_of_endTransaction he, a, hQ hquiet hq⟩

end Op

end IntentBuild
