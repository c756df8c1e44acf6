import IntentBuild.Proofs.Build.Applied
import IntentBuild.Proofs.Build.Areas
import IntentBuild.Proofs.Build.Course
import IntentBuild.Proofs.Build.Sheltering
import IntentBuild.Proofs.Operation.Writing

/-!
# What lowering leaves
-/

namespace IntentBuild

open Op

namespace Lowering

variable {c : BuildContext} {w w' : Workspace} {P : Path} {e b : IntentEntry}
  {es es' : List IntentEntry}

/-! ## The last entries of a list -/

/-- The entry is the last one of a list for its row of names. -/
def LastIn (es : List IntentEntry) (e : IntentEntry) : Prop :=
  ∃ pre post, es = pre ++ e :: post ∧ ∀ e' ∈ post, row e' ≠ row e

theorem LastIn.mem (h : LastIn es e) : e ∈ es := by
  obtain ⟨pre, post, rfl, -⟩ := h
  simp

/-- The last entry for a row in two lists stands in the second one, or has none for its row there. -/
theorem lastIn_append (h : LastIn (es ++ es') e) :
    LastIn es' e ∨ LastIn es e ∧ ∀ e' ∈ es', row e' ≠ row e := by
  obtain ⟨pre, post, heq, hpost⟩ := h
  rcases List.append_eq_append_iff.mp heq with ⟨mid, rfl, rfl⟩ | ⟨mid, rfl, hmid⟩
  · exact .inl ⟨mid, post, rfl, hpost⟩
  · cases mid with
    | nil => exact .inl ⟨[], post, hmid.symm, hpost⟩
    | cons a mid =>
        obtain ⟨rfl, rfl⟩ := List.cons.inj hmid
        exact .inr ⟨⟨pre, mid, rfl, fun e' he' => hpost e' (List.mem_append_left _ he')⟩,
          fun e' he' => hpost e' (List.mem_append_right _ he')⟩

theorem lastIn_singleton (h : LastIn [b] e) : e = b := by
  simpa using h.mem

/-! ## What the intent tree holds -/

/-- Below a directory there is what an entry says: a file that is set is there and reads as its content,
if this has no carriage return, and a file that is deleted is not there. -/
def Holds (w : Workspace) (P : Path) (e : IntentEntry) : Prop :=
  match e.change with
  | .set => ∃ text, e.content = some text ∧ w.files.isFile (P.child e.relativePath) = true ∧
      ('\r' ∉ text.toList → (readText (P.child e.relativePath)).run w = .ok text w)
  | .delete => w.files.isFile (P.child e.relativePath) = false

/-- Only the file of the entry counts. -/
theorem Holds.congr (h : Holds w P e)
    (hk : w'.files.key (P.child e.relativePath) = w.files.key (P.child e.relativePath))
    (hf : w'.files.fileAt? (w.files.key (P.child e.relativePath)) =
      w.files.fileAt? (w.files.key (P.child e.relativePath))) : Holds w' P e := by
  have hfile : w'.files.isFile (P.child e.relativePath) = w.files.isFile (P.child e.relativePath) := by
    rw [Bool.eq_iff_iff, FileTree.isFile_iff_fileAt?, FileTree.isFile_iff_fileAt?, hk, hf]
  have hbytes : w'.files.bytesAt? (w'.files.key (P.child e.relativePath)) =
      w.files.bytesAt? (w.files.key (P.child e.relativePath)) := by
    rw [FileTree.bytesAt?_eq_map, FileTree.bytesAt?_eq_map, hk, hf]
  unfold Holds at h ⊢
  split at h
  · obtain ⟨text, hcontent, hset, hread⟩ := h
    refine ⟨text, hcontent, hfile.trans hset, fun hr => ?_⟩
    obtain ⟨-, bytes, hb, hd⟩ := readText_eq_ok (hread hr)
    exact readText_run (hbytes.trans hb) hd
  · exact hfile.trans h

/-- The file of an entry is not the document. -/
theorem documentKey_ne_entry (he : checkEntry e = .ok ()) (w : Workspace) (P : Path) :
    w.files.key (P.child e.relativePath) ≠ w.documentKey := by
  obtain ⟨init, n, hrow, hn⟩ := concat_of_checkEntry he
  rw [key_entry he, w.documentKey_eq, row, hrow, ← List.append_assoc]
  intro heq
  exact hn (List.singleton_inj.mp (List.append_inj_right' heq rfl))

/-- While its file is neither written nor removed, the intent tree holds what an entry says. -/
theorem Holds.reach (h : Holds w P e) (he : checkEntry e = .ok ()) (hr : Reach (Event.Clears
    w.files.workingDirectory (w.files.key (P.child e.relativePath))) w w') : Holds w' P e :=
  h.congr (hr.key_eq _) (hr.fileAt?_eq (documentKey_ne_entry he w P))

/-- Entries for other rows leave an entry alone. -/
theorem clears_of_touches (he : checkEntry e = .ok ()) (hb : checkEntry b = .ok ())
    (hne : row b ≠ row e) (t : FileTree) {ev : Event} (hev : Touches (P.child b.relativePath) ev) :
    ev.Clears t.workingDirectory (t.key (P.child e.relativePath)) := by
  have hkey : t.key (P.child b.relativePath) ≠ t.key (P.child e.relativePath) := by
    rw [key_entry he, key_entry hb]
    exact fun heq => hne (List.append_cancel_left heq)
  cases ev with
  | write | remove => cases hev; exact hkey
  | _ => trivial

/-- An entry that was applied is what the intent tree holds. -/
theorem holds_applyEntry (hP : c.project.intent.pathEntry = .path P) (he : checkEntry e = .ok ())
    (hw : w.Sound) (h : (applyEntry c e).run w = .ok ⟨⟩ w') : Holds w' P e := by
  have hA (e : Event) (hn : ¬ e.Writes) : ¬ e.Writes := hn
  obtain ⟨Q, w₀, hdir, h⟩ := bind_eq_ok.mp h
  obtain rfl := (Graph.reader_pathOf _).eq hdir
  cases hP.symm.trans (Graph.pathOf_eq_ok hdir)
  cases hchange : e.change with
  | delete =>
      simp only [hchange] at h
      obtain ⟨b, w₁, hb, h⟩ := bind_eq_ok.mp h
      cases hb
      have rest : Safe (.only fun e => ¬ e.Writes) _ := safe_forgetPlace (c := c)
        (Regime.declares_only hA) (Regime.forgets_only hA _) (P.child e.relativePath).text
      cases hfile : w₀.files.isFile (P.child e.relativePath) with
      | false =>
          rw [hfile] at h
          refine Holds.reach ?_ he (((rest.runs _ trivial).ok hw h).1.mono fun _ hn =>
            Event.clears_of_not_writes hn)
          simpa only [Holds, hchange] using hfile
      | true =>
          rw [hfile] at h
          obtain ⟨_, _, hfiles, h⟩ := bind_eq_ok.mp h
          cases hfiles
          obtain ⟨_, w₁, hremove, h⟩ := bind_eq_ok.mp h
          cases hremove
          have hw₁ := (Happens.remove hfile).sound hw
          refine Holds.reach ?_ he (((rest.runs _ trivial).ok hw₁ h).1.mono fun _ hn =>
            Event.clears_of_not_writes hn)
          have hnone := w₀.files.bytesAt?_removeFile (P.child e.relativePath)
            (w₀.files.key (P.child e.relativePath))
          rw [if_pos rfl] at hnone
          simp only [Holds, hchange]
          rw [Bool.eq_false_iff]
          intro hset
          obtain ⟨b, hb⟩ := FileTree.isFile_iff.mp hset
          exact absurd (hnone.symm.trans hb) nofun
  | set =>
      simp only [hchange] at h
      cases hcontent : e.content with
      | none => rw [hcontent] at h; cases h
      | some text =>
          rw [hcontent] at h
          obtain ⟨_, w₁, hwrite, h⟩ := bind_eq_ok.mp h
          obtain ⟨_, w₂, hplace, h⟩ := bind_eq_ok.mp h
          cases h
          have hreach := ((Safe.runs (safe_writeIfChanged (R := .any) trivial) _ trivial).ok hw hwrite).1
          have hplaced := ((((Regime.places_only hA c.project.intent Graph.intentKind).safe_placeOf
            _).runs w₁ trivial).ok (hreach.sound hw) hplace).1
          refine Holds.reach ?_ he (hplaced.mono fun _ hn =>
            Event.clears_of_not_writes hn)
          obtain ⟨t, rfl, hwrote⟩ := writeIfChanged_eq_ok hwrite
          obtain ⟨b, hb, hd⟩ := hwrote.bytes
          have hkey : t.key (P.child e.relativePath) = w₀.files.key (P.child e.relativePath) :=
            FileTree.key_congr hwrote.workingDirectory _
          have hb' : t.bytesAt? (t.key (P.child e.relativePath)) = some b := by rwa [hkey]
          simp only [Holds, hchange]
          refine ⟨text, hcontent, FileTree.isFile_iff.mpr ⟨b, hb'⟩, fun hr => ?_⟩
          rw [Text.unifyLineBreaks_eq hr] at hd
          exact readText_run hb' hd

/-- Of the entries that were applied one after the other, the intent tree holds the last one for every
row. -/
theorem holds_entries (hP : c.project.intent.pathEntry = .path P)
    (hes : ∀ e ∈ es, checkEntry e = .ok ()) (hw : w.Sound)
    (h : (do for e in es do applyEntry c e : Op Unit).run w = .ok ⟨⟩ w') :
    Reach Event.Any w w' ∧ ∀ e, LastIn es e → Holds w' P e := by
  have hany := (Regime.builds_any c).carries.lowers c.project.specs
  have hloop : Runs Event.Any w (do for e in es do applyEntry c e : Op Unit) fun _ w' =>
      ∀ e, LastIn es e → Holds w' P e := by
    refine (Runs.forIn_fold (J := fun bs w' => ∀ e, LastIn bs e → Holds w' P e)
      (fun bs b hpre w₁ hw₁ _ hJ => ?_) fun e he => absurd he.mem nofun).bind
        fun _ _ _ _ h => .pure h
    have hb : checkEntry b = .ok () :=
      hes b (hpre.subset (List.mem_append_right _ (List.mem_singleton_self b)))
    have hsafe : Safe .any (applyEntry c b) :=
      safe_applyEntry hany.toDeclares hany.places hany.forgets (hany.entry hb)
    refine (hsafe.runs w₁ trivial).and_run.bind fun _ w₂ _ _ hrun => .pure ⟨rfl, fun e he => ?_⟩
    rcases lastIn_append he with he | ⟨he, hne⟩
    · rw [lastIn_singleton he]
      exact holds_applyEntry hP hb hw₁ hrun.1
    · have hrow := hne b (List.mem_singleton_self b)
      have hchecked : checkEntry e = .ok () :=
        hes e ((List.prefix_append bs [b]).trans hpre |>.subset he.mem)
      have hreach := reach_applyEntry (e := b) hw₁ hP
      rw [after_of_run hrun.1] at hreach
      exact (hJ e he).reach hchecked
        (hreach.mono fun _ => clears_of_touches hchecked hb hrow w₁.files)
  exact hloop.ok hw h

/-! ## What a unit leaves -/

/-- The entries that derived data lists. -/
def listed (n : Node) : Option Json := Assoc.get? "intentFiles" n.members

theorem undeclared_listed : Undeclared listed := fun _ hm => hm (by decide)

/-- The derived data of the file of a node lists the entries. -/
def Lists (w : Workspace) (i : String) (es : List IntentEntry) : Prop :=
  ∃ d, w.Has d ⟨some i, w.graph.instanceId, .loweringData, dataName⟩ listed
    (some (.arr (es.map IntentEntry.toJson)))

theorem listed_toJson {n : Node} {r : LoweringResult} (hn : n.json = r.toJson.members?) :
    listed n = some (.arr (r.files.map IntentEntry.toJson)) := by
  rw [listed, Node.members, hn]
  rfl

section

variable {tool : ToolConfig} {techStack : Option Members} {path : Path} {relative text : String}
  {file : Node}

theorem generative_unit : (unit c tool techStack path relative text file).Generative :=
  ⟨.pure _, ⟨file, _, _, rfl, by decide⟩, fun _ _ _ => rfl, .pure _, heedless_steps c file⟩

theorem fits_any : (unit c tool techStack path relative text file).Fits .any :=
  fits_unit ((Regime.builds_any c).carries.lowers file) ..

/-- The entries are applied first, and then the whole result is kept. -/
theorem apply_eq (r : LoweringResult) :
    (unit c tool techStack path relative text file).apply r =
      (do for e in r.files do applyEntry c e : Op Unit) >>= fun _ => keep file r := by
  have happly : (unit c tool techStack path relative text file).apply r =
      (do for x in r.files.map (applyEntry c) ++ [keep file r] do x : Op Unit) := rfl
  rw [happly, Work.forSteps_append, Work.forSteps_map, Work.forSteps_singleton]

/-- The file of an entry stays while entries for other rows are applied. -/
theorem clears_apply {r : LoweringResult} (hP : c.project.intent.pathEntry = .path P)
    (hr : ∀ b ∈ r.files, checkEntry b = .ok ()) (he : checkEntry e = .ok ())
    (hne : ∀ b ∈ r.files, row b ≠ row e) (t : FileTree) :
    Safe (.only (Event.Clears t.workingDirectory (t.key (P.child e.relativePath))))
      ((unit c tool techStack path relative text file).apply r) := by
  have hA (ev : Event) (hn : ¬ ev.Writes) :
      ev.Clears t.workingDirectory (t.key (P.child e.relativePath)) :=
    Event.clears_of_not_writes hn
  have hentry : ∀ b ∈ r.files, Safe (.only (Event.Clears t.workingDirectory
      (t.key (P.child e.relativePath)))) (applyEntry c b) := by
    intro b hb
    refine safe_applyEntry (Regime.declares_only hA) (Regime.places_only hA _ _)
      (Regime.forgets_only hA _) fun Q hQ => ?_
    cases hP.symm.trans hQ
    have hclears (ev : Event) (hev : Touches (P.child b.relativePath) ev) :
        ev.Clears t.workingDirectory (t.key (P.child e.relativePath)) :=
      clears_of_touches he (hr b hb) (hne b hb) t hev
    exact ⟨fun text => hclears (.write _ text) rfl, hclears (.remove _) rfl⟩
  refine Work.safe_steps fun x hx => ?_
  rcases List.mem_append.mp hx with hx | hx
  · obtain ⟨b, hb, rfl⟩ := List.mem_map.mp hx
    exact hentry b hb
  · rw [List.mem_singleton.mp hx]
    exact (Graph.safe_upsertDerived (fun _ _ _ _ => trivial) fun _ _ _ _ => trivial).bind fun _ => .pure _

/-- The derived data stays while the node is stamped. -/
theorem Lists.stamped {i : String} (h : Lists w i es) (hw : w.Sound)
    (hr : Reach Event.Stamps w w') : Lists w' i es := by
  obtain ⟨d, hd⟩ := h
  refine ⟨d, hr.instanceId_eq ▸ Lasts.reach (lasts_has d _ listed _) hw (hr.mono fun e he => ?_) hd⟩
  cases e with
  | content old new => exact ⟨trivial, fun _ => by rw [listed, listed, he.2.1]⟩
  | _ => exact he.elim

/-- A unit that succeeds leaves its entries in the derived data, and the last ones for their rows in the
intent tree.  What the intent tree held for other rows it holds on. -/
theorem unit_eq_ok {r : Runner} (hP : c.project.intent.pathEntry = .path P) (hw : w.Sound)
    {report : UnitReport LoweringResult}
    (h : ((unit c tool techStack path relative text file).run r).run w = .ok report w') :
    (∀ e ∈ report.result.files, checkEntry e = .ok ()) ∧
    Lists w' file.id report.result.files ∧
    (∀ e, LastIn report.result.files e → Holds w' P e) ∧
    ∀ e, checkEntry e = .ok () → (∀ b ∈ report.result.files, row b ≠ row e) → Holds w P e →
      Holds w' P e := by
  obtain ⟨w₁, w₂, ⟨hprepared, ⟨n, hchecked⟩, happly, hstamped, -⟩⟩ :=
    Work.run_eq_ok generative_unit fits_any hw h
  have hw₁ := hprepared.sound hw
  have hentries := checkEntry_of_mem hchecked
  have hw₂ := (((fits_any.apply hchecked).runs w₁ trivial).ok hw₁ happly).1.sound hw₁
  have stamped {e : IntentEntry} (he : checkEntry e = .ok ()) (hheld : Holds w₂ P e) : Holds w' P e :=
    hheld.reach he (hstamped.mono fun _ hs => hs.clears _ _)
  have happlied := happly
  rw [apply_eq] at happlied
  obtain ⟨_, w₃, hloop, hkept⟩ := bind_eq_ok.mp happlied
  obtain ⟨d, _, hupsert, hend⟩ := bind_eq_ok.mp hkept
  cases hend
  obtain ⟨hlooped, hlast⟩ := holds_entries hP hentries hw₁ hloop
  obtain ⟨hupserted, hkey, hjson, hd⟩ := (Graph.runs_upsertDerived (A := fun e => ¬ e.Writes)
    (fun _ _ _ _ => id) fun _ _ _ _ => id).ok (hlooped.sound hw₁) hupsert
  refine ⟨hentries, ?_, fun e he => ?_, fun e he hne hheld => ?_⟩
  · refine Lists.stamped ⟨d.id, d, hd, ?_, listed_toJson hjson⟩ hw₂ hstamped
    rw [hkey, hupserted.instanceId_eq]
  · have hchecked := hentries e he.mem
    exact stamped hchecked ((hlast e he).reach hchecked
      (hupserted.mono fun _ hn => Event.clears_of_not_writes hn))
  · have hprep := hheld.reach he (hprepared.mono fun _ hs => hs.clears _ _)
    exact stamped he (hprep.reach he (((clears_apply hP hentries he hne w₁.files).runs w₁
      trivial).ok hw₁ happly).1)

end

/-! ## The units of the stage -/

/-- The rows of the specifications below a directory, in order, but for that of the tech stack. -/
def specRows (t : FileTree) (Q : Path) : List (List String) :=
  (t.filesBelow Q Stage.markdown).filter fun names => names.getLastD "" != Stage.techStackFile

/-- The unit is that of the specification at a row of names. -/
def Made (c : BuildContext) (w : Workspace) (names : List String) (u : Work LoweringResult) : Prop :=
  ∃ tool techStack path relative text file, u = unit c tool techStack path relative text file ∧
    Graph.Stands w Graph.specKind c.project.specs.id names file.id

theorem Made.reach {names : List String} {u : Work LoweringResult} (h : Made c w names u)
    (hw : w.Sound) (hr : Reach (Event.Spares fun _ => True) w w') : Made c w' names u := by
  obtain ⟨tool, techStack, path, relative, text, file, hu, hstands⟩ := h
  exact ⟨tool, techStack, path, relative, text, file, hu, hstands.reach hw hr⟩

theorem filter_listFiles (t : FileTree) (ht : t.Proper) (Q : Path) :
    ((t.listFiles Q Stage.markdown).filter fun p => p.name != Stage.techStackFile) =
      (specRows t Q).map Q.below := by
  have hrows : t.listFiles Q Stage.markdown = (t.filesBelow Q Stage.markdown).map Q.below := rfl
  rw [hrows, List.filter_map]
  congr 1
  refine List.filter_congr fun names hnames => ?_
  obtain ⟨hshown, -⟩ := (FileTree.mem_filesBelow ht.entries).mp hnames
  simp [Q.name_below hshown.nonempty]

theorem row_of_mem_specRows {Q : Path} {names : List String} (ht : w.files.Proper)
    (h : names ∈ specRows w.files Q) : Stage.Row w Q (Q.below names) names :=
  Stage.row_of_mem_filesBelow ht (List.mem_filter.mp h).1

theorem nodup_specRows {t : FileTree} (ht : t.Proper) (Q : Path) : (specRows t Q).Nodup :=
  (FileTree.nodup_filesBelow ht.entries Q Stage.markdown).filter _

variable {Q : Path}

/-- The units are made after pruning, one for each row. -/
theorem works_parts (hQ : c.project.specs.pathEntry = .path Q) (ht : w.files.Proper)
    {us : List (Work LoweringResult)} (h : (works c).run w = .ok us w') : ∃ w₁ tool techStack,
      (Stage.pruneMissing c c.project.specs Graph.specKind).run w = .ok ⟨⟩ w₁ ∧
        ((specRows w.files Q).mapM (work c tool techStack ∘ Q.below)).run w₁ = .ok us w' := by
  obtain ⟨files, w₀, hfiles, h₁⟩ := bind_eq_ok.mp h
  obtain rfl := (Stage.reader_markdownFiles _).eq hfiles
  obtain ⟨Q', hQ', rfl⟩ := Stage.markdownFiles_eq_ok hfiles
  cases hQ.symm.trans hQ'
  obtain ⟨_, w₁, hprune, h₂⟩ := bind_eq_ok.mp h₁
  obtain ⟨techStack, w₂, hcurrent, h₃⟩ := bind_eq_ok.mp h₂
  obtain rfl := (TechStack.reader_current c).eq hcurrent
  obtain ⟨tool, w₃, htool, h₄⟩ := bind_eq_ok.mp h₃
  obtain rfl := (c.reader_toolConfig _).eq htool
  rw [filter_listFiles _ ht, List.mapM_map] at h₄
  exact ⟨w₃, tool, techStack, hprune, h₄⟩

/-- The units are made in the order of the rows. -/
theorem works_eq_ok (hQ : c.project.specs.pathEntry = .path Q) (hne : Q.names ≠ []) (hw : w.Sound)
    (ht : w.files.Proper) (hbase : w.Base c.project.specs.id) {us : List (Work LoweringResult)}
    (h : (works c).run w = .ok us w') : w'.Sound ∧ w'.Base c.project.specs.id ∧
      List.Forall₂ (Made c w') (specRows w.files Q) us := by
  obtain ⟨w₃, tool, techStack, hprune, hmake⟩ := works_parts hQ ht h
  have hprunes : Safe (.sparing w (w.Above c.project.specs.id))
      (Stage.pruneMissing c c.project.specs Graph.specKind) :=
    Stage.safe_pruneMissing Regime.declares_sparing
      (Regime.forgets_sparing (hbase.shelter hw) hbase.specs.lacks_above) c.project.specs
  obtain ⟨hpruned, -⟩ := (hprunes.runs w (.refl w _)).ok hw hprune
  have hw₃ := hpruned.sound hw
  have each : Runs (Event.Spares fun _ => True) w₃
      ((specRows w.files Q).mapM (work c tool techStack ∘ Q.below)) fun us w' =>
        List.Forall₂ (Made c w') (specRows w.files Q) us := by
    refine Runs.mapM_fold (J := fun rows us w' => List.Forall₂ (Made c w') rows us)
      (fun rows us names hpre w₁ hw₁ _ hmade => ?_) .nil
    have hnames := hpre.subset (List.mem_append_right _ (List.mem_singleton_self names))
    have hparts := (row_of_mem_specRows ht hnames).hasParts hQ hne
    rw [Function.comp_apply, work_eq]
    refine ((Graph.runs_placeOf hparts).mono fun e he => ?_).bind fun file w₂ hw₂ hreach hfile => ?_
    · cases e <;> first | exact he.elim | trivial
    · refine .reader (Graph.reader_relativePath _ _) fun relative _ => .reader (reader_readText _)
        fun text _ => .pure ?_
      have hold := hmade.imp fun _ _ h => h.reach hw₁ hreach
      exact List.rel_append hold (.cons ⟨_, _, _, _, _, _, rfl, hfile.2⟩ .nil)
  obtain ⟨hmaking, hmade⟩ := each.ok hw₃ hmake
  refine ⟨hmaking.sound hw₃, (hbase.reach hw hpruned).reach hw₃ (hmaking.mono fun e he => ?_), hmade⟩
  cases e <;> first | exact (he trivial).elim | trivial

/-! ## The data of specifications -/

/-- The specification at a row of names has the entries in its derived data. -/
def Data (w : Workspace) (p : Project) (names : List String) (es : List IntentEntry) : Prop :=
  ∃ i, Graph.Stands w Graph.specKind p.specs.id names i ∧ Lists w i es

/-- The changes that spare all that no intent file is above, and that leave the entries in derived data
alone but for those of one file. -/
def keeping (w : Workspace) (K : NodeKey → Prop) : Regime :=
  .sheltering w (w.Clear .intentFile) K listed

/-- Data stays while only that of other files changes. -/
theorem Data.reach {K : NodeKey → Prop} {p : Project} {names : List String} (h : Data w p names es)
    (hw : w.Sound) (hbase : w.Base p.specs.id)
    (hK : ∀ i, Graph.Stands w Graph.specKind p.specs.id names i →
      K ⟨some i, w.graph.instanceId, .loweringData, dataName⟩)
    (hr : Reach (keeping w K).admits w w') : Data w' p names es := by
  obtain ⟨i, hstands, d, hd⟩ := h
  have hi : w.Clear .intentFile i := hstands.clear hbase.intent (by decide) (by decide)
  have hstay := Lasts.reach (w.lasts_stay _) hw (hr.mono fun _ he => he.1) (.refl w _)
  refine ⟨i, hstands.stay hi (w.shelter_clear hw _) hstay hr.instanceId_eq, d, ?_⟩
  rw [hr.instanceId_eq]
  exact hr.has hw (hi.child hd.keyed rfl nofun) (hK i hstands) hd

theorem lowers_keeping (c : BuildContext) (hw : w.Sound) (file : Node) :
    (keeping w fun k => k.parent ≠ some file.id).Lowers c file where
  toDeclares := Regime.declares_sheltering undeclared_listed
  toDerives := Regime.derives_sheltering fun _ hk _ => hk
  places := Regime.places_sheltering _ _
  forgets := Regime.forgets_sheltering (w.shelter_clear hw _) (w.lacks_clear _)
  entry _ _ _ := ⟨fun _ => ⟨trivial, fun _ _ => trivial⟩, trivial, fun _ _ => trivial⟩

/-- What the units so far have left: the data of their specifications and, for every row of names that
one of their entries is for, what the last one says. -/
structure Left (p : Project) (P : Path) (rs : List (List String × List IntentEntry))
    (w : Workspace) : Prop where
  /-- The data lists the entries. -/
  data : ∀ r ∈ rs, Data w p r.1 r.2
  /-- The entries have passed the check. -/
  checked : ∀ r ∈ rs, ∀ e ∈ r.2, checkEntry e = .ok ()
  /-- The intent tree holds the last entries. -/
  held : ∀ e, LastIn (rs.flatMap Prod.snd) e → Holds w P e

/-- A unit of another specification adds to what is left. -/
theorem Left.unit {rs : List (List String × List IntentEntry)} {u : Work LoweringResult} {r : Runner}
    {names : List String} (h : Left c.project P rs w) (hP : c.project.intent.pathEntry = .path P)
    (hw : w.Sound) (hbase : w.Base c.project.specs.id) (hu : Made c w names u)
    (hnew : ∀ r ∈ rs, r.1 ≠ names) {report : UnitReport LoweringResult}
    (hrun : (u.run r).run w = .ok report w') :
    Left c.project P (rs ++ [(names, report.result.files)]) w' ∧
      Reach (Event.Spares (w.Clear .intentFile)) w w' := by
  obtain ⟨tool, techStack, path, relative, text, file, rfl, hstands⟩ := hu
  obtain ⟨hchecked, hlists, hlast, hother⟩ := unit_eq_ok hP hw hrun
  have hkept := ((((fits_unit (lowers_keeping c hw file) tool techStack path relative text).run
    (Regime.records_sheltering undeclared_listed) r).runs w (.refl w _)).ok hw hrun).1
  have hspared : Reach (Event.Spares (w.Clear .intentFile)) w w' := hkept.mono fun _ he => he.1
  have hfile : w.Clear .intentFile file.id := hstands.clear hbase.intent (by decide) (by decide)
  have hstay := Lasts.reach (w.lasts_stay _) hw hspared (.refl w _)
  refine ⟨⟨?_, ?_, fun e he => ?_⟩, hspared⟩
  · intro q hq
    rcases List.mem_append.mp hq with hq | hq
    · refine (h.data q hq).reach hw hbase (fun i hi => ?_) hkept
      rintro ⟨⟩
      exact hnew q hq (hi.names_eq hw hstands)
    · obtain rfl := List.mem_singleton.mp hq
      exact ⟨file.id, hstands.stay hfile (w.shelter_clear hw _) hstay hspared.instanceId_eq, hlists⟩
  · intro q hq
    rcases List.mem_append.mp hq with hq | hq
    · exact h.checked q hq
    · obtain rfl := List.mem_singleton.mp hq
      exact hchecked
  · rw [List.flatMap_append, List.flatMap_singleton] at he
    rcases lastIn_append he with he | ⟨he, hne⟩
    · exact hlast e he
    · obtain ⟨q, hq, hmem⟩ := List.mem_flatMap.mp he.mem
      exact hother e (h.checked q hq e hmem) hne (h.held e he)

/-- The unit after the units so far is that of the next row. -/
theorem made_next {rows : List (List String)} {us vs : List (Work LoweringResult)}
    {u : Work LoweringResult} (hmade : List.Forall₂ (Made c w) rows us) (hpre : vs ++ [u] <+: us) :
    ∃ names, rows.take (vs ++ [u]).length = rows.take vs.length ++ [names] ∧ Made c w names u := by
  obtain ⟨post, rfl⟩ := hpre
  obtain ⟨hlen, hget⟩ := List.forall₂_iff_get.mp hmade
  have hlt : vs.length < rows.length := by simp [hlen]
  refine ⟨rows[vs.length], ?_, ?_⟩
  · rw [List.length_append, List.length_singleton, List.take_add_one, List.getElem?_eq_getElem hlt]
    rfl
  have hu := hget vs.length hlt (by simp)
  simpa using hu

/-- What holds after the first units of a row, one for each specification. -/
structure Progress (c : BuildContext) (P : Path) (rows : List (List String))
    (us : List (Work LoweringResult)) (n : Nat) (w : Workspace) : Prop where
  /-- The root is a base. -/
  base : w.Base c.project.specs.id
  /-- The units are those of the rows. -/
  made : List.Forall₂ (Made c w) rows us
  /-- The first units have left their entries. -/
  left : ∃ rs, rs.map Prod.fst = rows.take n ∧ Left c.project P rs w

theorem Progress.next {rows : List (List String)} {us vs : List (Work LoweringResult)}
    {u : Work LoweringResult} {r : Runner} (h : Progress c P rows us vs.length w)
    (hP : c.project.intent.pathEntry = .path P) (hw : w.Sound) (hrows : rows.Nodup)
    (hpre : vs ++ [u] <+: us) {report : UnitReport LoweringResult}
    (hrun : (u.run r).run w = .ok report w') : Progress c P rows us (vs ++ [u]).length w' := by
  obtain ⟨rs, hrs, hleft⟩ := h.left
  obtain ⟨names, htake, hu⟩ := made_next h.made hpre
  have hnodup : (rows.take (vs ++ [u]).length).Nodup := hrows.sublist (List.take_sublist _ _)
  rw [htake, ← hrs] at hnodup
  have hnew : ∀ q ∈ rs, q.1 ≠ names := by
    rintro q hq rfl
    exact (List.nodup_append.mp hnodup).2.2 q.1 (List.mem_map_of_mem hq) q.1
      (List.mem_singleton_self _) rfl
  obtain ⟨hleft', hspared⟩ := hleft.unit hP hw h.base hu hnew hrun
  have hstay := Lasts.reach (w.lasts_stay _) hw hspared (.refl w _)
  have hS := w.shelter_clear hw .intentFile
  exact
    { base := h.base.stay h.base.intent hS hstay
      made := h.made.imp fun _ _ ⟨_, _, _, _, _, _, hv, hstands⟩ => ⟨_, _, _, _, _, _, hv,
        hstands.stay (hstands.clear h.base.intent (by decide) (by decide)) hS hstay
          hspared.instanceId_eq⟩
      left := ⟨rs ++ [(names, report.result.files)], by rw [List.map_append, hrs, htake]; rfl,
        hleft'⟩ }

/-- Where one unit runs at a time, the stage leaves what its units leave, in the order of the rows. -/
theorem run_eq_ok (hone : c.runner.concurrency ≤ 1) (hQ : c.project.specs.pathEntry = .path Q) (hne : Q.names ≠ [])
    (hP : c.project.intent.pathEntry = .path P) (hw : w.Sound) (ht : w.files.Proper)
    (hbase : w.Base c.project.specs.id) {report : StageReport}
    (h : (run c).run w = .ok report w') : w'.Base c.project.specs.id ∧
      ∃ rs, rs.map Prod.fst = specRows w.files Q ∧ Left c.project P rs w' := by
  obtain ⟨us, w₁, hworks, h⟩ := bind_eq_ok.mp h
  obtain ⟨hw₁, hbase₁, hmade₁⟩ := works_eq_ok hQ hne hw ht hbase hworks
  obtain ⟨reports, w₂, hall, h⟩ := bind_eq_ok.mp h
  cases h
  have hfits : ∀ u ∈ us, u.Fits .any := by
    intro u hu
    obtain ⟨_, _, _, _, _, _, rfl⟩ := mem_works hworks u hu
    exact fits_any
  have hstart : Progress c P (specRows w.files Q) us ([] : List (Work LoweringResult)).length w₁ :=
    ⟨hbase₁, hmade₁, [], rfl, nofun, nofun, fun e he => absurd he.mem nofun⟩
  have hend := Work.runAll_fold (J := fun vs v => Progress c P (specRows w.files Q) us vs.length v)
    hone hfits hw₁ hstart (fun _ _ hpre _ _ _ hv _ hJ hrun =>
      hJ.next hP hv (nodup_specRows ht Q) hpre hrun) hall
  obtain ⟨rs, hrs, hleft⟩ := hend.left
  refine ⟨hend.base, rs, ?_, hleft⟩
  rw [hrs, ← hmade₁.length_eq, List.take_length]

end Lowering

end IntentBuild
