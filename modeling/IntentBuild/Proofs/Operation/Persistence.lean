import IntentBuild.Proofs.Build.Frame
import IntentBuild.Proofs.Operation.Disk
import IntentBuild.Proofs.Operation.Session
import IntentBuild.Proofs.Operation.Writing
import IntentBuild.Proofs.Store.Document

/-!
# The document follows the graph

A graph that is opened again is the graph as it was, at every point where no transaction is open
(`Workspace.reopened`): after any history of requests, failed ones included, and of transactions that
open and close around them.

Two things are kept for this.  With nothing left to write, the file of the document holds the document of
the tables (`Workspace.InStep`), and outside all transactions nothing is left to write.  The second has
one exception: while a transaction is open the document may not be there yet, and a directory that is
made in its place keeps it from being written (`Workspace.Blocked`).  Directories never go, so a place
that is blocked stays blocked.
-/

namespace IntentBuild

open Op

/-! ## The place of the document -/

namespace Workspace

variable {w : Workspace}

/-- The directory of the document is there, with those above it. -/
def Rooted (w : Workspace) : Prop :=
  ∀ k, k <+: w.files.key w.graph.root → w.files.entryAt k = some .dir

/-- A directory stands in the place of the document. -/
def Blocked (w : Workspace) : Prop := w.files.entryAt w.documentKey = some .dir

/-- Only a directory in its place keeps the document from being written. -/
theorem Rooted.writable (h : w.Rooted) (hb : ¬ w.Blocked) : w.Writable := by
  have hdir : w.files.entryAt (w.files.key (documentPath w.graph)).dropLast = some .dir := by
    have hkey := w.documentKey_eq
    rw [documentKey] at hkey
    rw [hkey, List.dropLast_concat]
    exact h _ (List.prefix_refl _)
  obtain ⟨t, ht⟩ := w.files.place_of_ne_dir hdir hb
  exact ⟨_, save_eq_ok.mpr ⟨_, t, FileTree.makeDirs_of_dirs h, ht, rfl⟩⟩

end Workspace

/-! ## What changes keep -/

namespace Workspace

/-- With nothing left to write, the file of the document holds the document of the tables.  There is no
file as long as nothing was ever put into the graph. -/
def InStep (w : Workspace) : Prop :=
  w.graph.unsaved = false →
    w.files.bytesAt? w.documentKey = some w.tables.document.toUTF8 ∨
      w.files.bytesAt? w.documentKey = none ∧ w.tables = {}

end Workspace

namespace Happens

variable {e : Event} {w w' : Workspace}

/-- A node has a name from the start, and no change takes it away. -/
theorem named (h : Happens e w w') (hw : w.tables.Named) : w'.tables.Named := by
  intro i n hn
  cases h with
  | node h _ _ hname =>
      obtain ⟨rfl, -⟩ := Tables.insertNode_eq_ok h
      change Assoc.get? i (Assoc.set _ _ w.tables.nodes) = some n at hn
      rw [Assoc.get?_set] at hn
      split at hn
      · cases hn; exact hname
      · exact hw hn
  | content h hk _ =>
      change (w.tables.putNode _).node? i = some n at hn
      rw [Tables.node?_putNode] at hn
      split at hn
      · cases hn
        have hname := congrArg NodeKey.name hk
        exact fun he => hw h (hname.symm.trans he)
      · exact hw hn
  | dropNode =>
      change (w.tables.dropNode _).node? i = some n at hn
      rw [Tables.node?_dropNode] at hn
      split at hn
      · cases hn
      · exact hw hn
  | edge h => obtain ⟨rfl, -⟩ := Tables.insertEdge_eq_ok h; exact hw hn
  | _ => exact hw hn

/-- The document stays in step while nothing else writes or removes its file. -/
theorem inStep (h : Happens e w w')
    (he : e.Quiet ∨ e.Clears w.files.workingDirectory w.documentKey) (hw : w.InStep) : w'.InStep := by
  have hkey := h.documentKey_eq
  unfold Workspace.InStep
  rw [hkey]
  cases h with
  | notice | supply | calls | depth => exact hw
  | makeDirs h =>
      rw [FileTree.makeDirs_eq_ok h, FileTree.bytesAt?_addDirs]
      exact hw
  | save h =>
      intro _
      left
      rw [FileTree.bytesAt?_place h]
      exact if_pos rfl
  | write h =>
      have hne : w.documentKey ≠ w.files.key _ := fun hk => he.elim id fun hc => hc hk.symm
      rw [FileTree.bytesAt?_write h, if_neg hne]
      exact hw
  | remove h =>
      have hne : w.documentKey ≠ w.files.key _ := fun hk => he.elim id fun hc => hc hk.symm
      change _ → (w.files.removeFile _).bytesAt? _ = _ ∨ (w.files.removeFile _).bytesAt? _ = _ ∧ _
      rw [FileTree.bytesAt?_removeFile, if_neg hne]
      exact hw
  | node | content | dropNode | edge | dropEdge | record | dropRecord => nofun

end Happens

/-! ## Rows of changes -/

namespace Reach

variable {A : Event → Prop} {w w' : Workspace}

theorem rooted (h : Reach A w w') (hw : w.Rooted) : w'.Rooted := by
  intro k hk
  rw [h.root_eq, FileTree.key_congr h.workingDirectory_eq] at hk
  exact h.dir (hw k hk)

theorem blocked (h : Reach A w w') (hw : w.Blocked) : w'.Blocked := by
  rw [Workspace.Blocked, h.documentKey_eq]
  exact h.dir hw

theorem named (h : Reach A w w') (hw : w.tables.Named) : w'.tables.Named := by
  induction h with
  | refl => exact hw
  | step _ _ hs ih => exact hs.named ih

theorem inStep (h : Reach (Event.Clears w.files.workingDirectory w.documentKey) w w')
    (hw : w.InStep) : w'.InStep := by
  induction h with
  | refl => exact hw
  | step h he hs ih =>
      rw [← h.workingDirectory_eq, ← h.documentKey_eq] at he
      exact hs.inStep he ih

end Reach

/-! ## The invariant -/

namespace Workspace

/-- What every step of a history keeps. -/
structure Kept (w : Workspace) : Prop where
  /-- The graph is in order. -/
  sound : w.Sound
  /-- Every node has a name. -/
  named : w.tables.Named
  /-- The directory of the document is there. -/
  rooted : w.Rooted
  /-- The document is in step. -/
  inStep : w.InStep
  /-- Outside all transactions nothing is left to write that could be written. -/
  written : w.graph.depth = 0 → w.graph.unsaved = true → w.Blocked

variable {w w' : Workspace}

/-- A whole operation keeps the invariant. -/
theorem Kept.way (h : w.Kept)
    (hw : Way (Event.Clears w.files.workingDirectory w.documentKey) w w') : w'.Kept where
  sound := hw.sound h.sound
  named := hw.reach.named h.named
  rooted := hw.reach.rooted h.rooted
  inStep := hw.reach.inStep h.inStep
  written hd hu := by
    rcases hw.written hd hu with hu | ⟨v, hv, hv', hn⟩
    · exact hw.reach.blocked (h.written (hw.depth.symm.trans hd) hu)
    · by_contra hb
      exact hn ((hv.rooted h.rooted).writable fun hb' => hb (hv'.blocked hb'))

/-- A transaction that begins keeps the invariant. -/
theorem Kept.opened (h : w.Kept) : (w.atDepth (w.graph.depth + 1)).Kept :=
  { sound := ⟨h.sound.wellFormed, h.sound.spent, h.sound.exact⟩, named := h.named,
    rooted := h.rooted, inStep := h.inStep, written := fun hd => absurd hd (Nat.succ_ne_zero _) }

/-- After the outermost transaction nothing is left to write that could be written. -/
theorem unsaved_endTransaction (hd : (endTransaction.after w).graph.depth = 0)
    (hu : (endTransaction.after w).graph.unsaved = true) :
    ¬ (w.atDepth (w.graph.depth - 1)).Writable := by
  by_cases hc : w.graph.depth - 1 = 0 ∧ w.graph.unsaved = true
  · rintro ⟨w', hs⟩
    rw [Op.after, endTransaction_eq, if_pos hc, hs] at hu
    exact absurd ((unsaved_of_save hs).symm.trans hu) Bool.false_ne_true
  · rw [Op.after, endTransaction_eq, if_neg hc] at hd hu
    exact absurd ⟨hd, hu⟩ hc

/-- A transaction that ends keeps the invariant, whether the document can be written or not. -/
theorem Kept.closed (h : w.Kept) : (endTransaction.after w).Kept := by
  have hr (A : Event → Prop) : Reach A w (endTransaction.after w) := reach_endTransaction h.sound
  refine { sound := (hr Event.None).sound h.sound, named := (hr Event.None).named h.named,
           rooted := (hr Event.None).rooted h.rooted, inStep := (hr _).inStep h.inStep,
           written := fun hd hu => ?_ }
  by_contra hb
  refine unsaved_endTransaction hd hu (Rooted.writable h.rooted fun hb' => hb ?_)
  exact (hr Event.None).blocked hb'

end Workspace

/-! ## Requests -/

/-- A path that ends in a name other than that of the document is not that of the document. -/
theorem Workspace.key_ne_documentKey (w : Workspace) (P : Path) {ns : List String} {n : String}
    (hup : ∀ m ∈ ns ++ [n], m ≠ "..") (hn : n ≠ "graph.json") :
    w.files.key (P.below (ns ++ [n])) ≠ w.documentKey := by
  rw [w.files.key_below P hup, w.documentKey_eq, ← List.append_assoc]
  exact fun h => hn (List.append_inj_right' h rfl |> List.singleton_inj.mp)

namespace Request

/-- A build of a project is asked for only where the document does not lie in the directory of its
sources: it is the path of no source file. -/
def Clears (w : Workspace) : Request → Prop
  | build _ _ name _ => ∀ {p : Project} {P : Path} {s : String}, p.Found name w →
      p.source.pathEntry = .path P → Graph.Below s →
        w.files.key (P.child (Path.withoutIntentSuffix s)) ≠ w.documentKey
  | _ => True

end Request

namespace Workspace

variable {w : Workspace}

/-- The changes that leave the file of the document alone. -/
def clearing (w : Workspace) : Regime :=
  .only (Event.Clears w.files.workingDirectory w.documentKey)

theorem declares_clearing (w : Workspace) : w.clearing.Declares :=
  ⟨fun _ _ _ => trivial, fun _ _ _ => trivial, fun _ => trivial, fun _ _ => trivial⟩

/-- The file of the dependencies and the package file are not the document. -/
theorem files_clearing (w : Workspace) (P : Path) :
    w.clearing.Files ((P.child ".intentcode").child "deps.json") := by
  have hparent : ((P.child ".intentcode").child "deps.json").parent.parent = P := by
    rw [Path.child_name P (by decide), Path.child_name _ (by decide),
      Path.below_below]
    simp [Path.parent, Path.below]
  refine fun text => ⟨?_, ?_⟩
  · rw [Path.child_name P (by decide), Path.child_name _ (by decide),
      Path.below_below]
    exact w.key_ne_documentKey P (by decide) (by decide)
  · rw [hparent, Path.child_name P (by decide)]
    exact @Workspace.key_ne_documentKey w P [] _ (by decide) (by decide)

/-- The file of the tech stack is not the document. -/
theorem summary_clearing (w : Workspace) (P : Path) :
    w.files.key ((P.child ".intentcode").child "tech-stack.json") ≠ w.documentKey := by
  rw [Path.child_name P (by decide), Path.child_name _ (by decide), Path.below_below]
  exact w.key_ne_documentKey P (by decide) (by decide)

/-- The file of an entry is not the document. -/
theorem enters_clearing (w : Workspace) (c : BuildContext) {e : IntentEntry}
    (he : Lowering.checkEntry e = .ok ()) : w.clearing.Enters c e := by
  intro P _
  obtain ⟨hanchor, hhollow⟩ := Lowering.relative_of_checkEntry he
  obtain ⟨init, n, hnames, hn⟩ := Lowering.concat_of_checkEntry he
  have hkey : w.files.key (P.child e.relativePath) ≠ w.documentKey := by
    rw [Path.child_eq hanchor, hnames]
    refine w.key_ne_documentKey P (fun m hm hup => ?_) hn
    have hm := hhollow m (hnames ▸ hm)
    rw [hup] at hm
    cases hm
  exact ⟨fun _ => hkey, hkey⟩

/-- All that the stages of a build write leaves the document alone, where it is no source file. -/
theorem builds_clearing {c : BuildContext} (hs : ∀ {P s}, c.project.source.pathEntry = .path P →
    Graph.Below s → w.files.key (P.child (Path.withoutIntentSuffix s)) ≠ w.documentKey) :
    w.clearing.Builds c where
  toDeclares := w.declares_clearing
  calls := trivial
  record _ := trivial
  dropRecord _ := trivial
  keep _ _ _ _ _ := trivial
  text _ _ _ _ := trivial
  node _ _ := trivial
  content _ _ _ := trivial
  forget {w' n} hI _ _ :=
    (Graph.safe_cascadeDelete (fun _ => trivial) (fun _ => trivial) (fun _ => trivial) n true).runs
      w' hI
  summary {P} _ _ := w.summary_clearing P
  entry he := w.enters_clearing c he
  source hP hb _ := hs hP hb

end Workspace

/-- Every request leaves the document alone, where it is clear of it. -/
theorem Request.runs_op_clears {r : Request} {w : Workspace} (hr : r.Clears w) :
    Runs (Event.Clears w.files.workingDirectory w.documentKey) w r.op fun _ _ => True := by
  have hA (e : Event) (_ : ¬ e.Records) (hn : ¬ e.Writes) : w.clearing.admits e := by
    cases e with
    | write | remove => exact absurd trivial hn
    | _ => trivial
  cases r with
  | sync project =>
      have hsafe : Safe w.clearing (DepsFile.sync project) :=
        DepsFile.safe_sync w.declares_clearing (fun _ _ _ _ => trivial) fun _ => w.files_clearing _
      exact (hsafe.bind fun _ => .pure _).runs w trivial
  | build b s name plan =>
      have hlaunch : Runs w.clearing.admits w (Build.launch b s name plan) fun _ _ => True :=
        Build.runs_launch w.declares_clearing trivial trivial b fun hc =>
          ⟨(Workspace.builds_clearing (hr hc)).carries,
            DepsFile.safe_sync w.declares_clearing (fun _ _ _ _ => trivial) fun _ => w.files_clearing _⟩
      exact hlaunch.bind fun _ _ _ _ _ => .pure trivial
  | _ => exact (safe_op_of_not_writes hA _ id fun _ _ => trivial).runs w trivial

/-! ## Histories -/

namespace Workspace

/-- What may happen to a graph since it was opened: requests and verifications, which may fail,
transactions that begin and end around them, also when what they hold failed, and files that are
changed from outside, but for the file of the document and the directories above it. -/
inductive History (w₀ : Workspace) : Workspace → Prop
  | start : History w₀ w₀
  | request {w : Workspace} (h : History w₀ w) (r : Request) (hr : r.Clears w) :
      History w₀ (r.op.after w)
  | verified {w : Workspace} (h : History w₀ w) (project : Node) :
      History w₀ ((DepsFile.verify project).after w)
  | opened {w : Workspace} (h : History w₀ w) : History w₀ (beginTransaction.after w)
  | closed {w : Workspace} (h : History w₀ w) (hd : w.graph.depth ≠ 0) :
      History w₀ (endTransaction.after w)
  | outside {w : Workspace} (h : History w₀ w) (t : FileTree)
      (hd : t.workingDirectory = w.files.workingDirectory)
      (hk : ∀ k, k <+: w.documentKey → t.entryAt k = w.files.entryAt k) :
      History w₀ { w with files := t }

variable {w₀ : Workspace}

theorem History.kept (h : History w₀ w) (h₀ : w₀.Kept) : w.Kept := by
  induction h with
  | start => exact h₀
  | request _ r hr ih => exact ih.way ((Request.runs_op_clears hr).way ih.sound)
  | @verified w _ project ih =>
      have hsafe : Safe w.clearing (DepsFile.verify project) :=
        DepsFile.safe_verify w.declares_clearing project
      exact ih.way ((hsafe.runs w trivial).way ih.sound)
  | opened _ ih => exact ih.opened
  | closed _ _ ih => exact ih.closed
  | @outside w _ t hd hk ih =>
      have hkey : Workspace.documentKey { w with files := t } = w.documentKey :=
        FileTree.key_congr hd _
      have hroot : t.key w.graph.root = w.files.key w.graph.root := FileTree.key_congr hd _
      have hdoc : t.entryAt w.documentKey = w.files.entryAt w.documentKey :=
        hk _ (List.prefix_refl _)
      refine { sound := ⟨ih.sound.wellFormed, ih.sound.spent, ih.sound.exact⟩, named := ih.named,
               rooted := fun k hp => ?_, inStep := ?_, written := fun h₀ hu => ?_ }
      · change k <+: t.key w.graph.root at hp
        rw [hroot] at hp
        refine (hk k (hp.trans ?_)).trans (ih.rooted k hp)
        exact w.documentKey_eq ▸ List.prefix_append ..
      · unfold InStep
        rw [hkey]
        change _ → t.bytesAt? _ = _ ∨ t.bytesAt? _ = _ ∧ _
        rw [FileTree.bytesAt?_congr hdoc]
        exact ih.inStep
      · rw [Blocked, hkey]
        exact hdoc.trans (ih.written h₀ hu)

/-! ## Opening -/

theorem readDocument_none {p : Path} (h : w.files.bytesAt? (w.files.key p) = none) :
    (readDocument p).run w = .ok none w := by
  have hfile : w.files.isFile p = false := by
    rw [← Bool.not_eq_true, FileTree.isFile_iff, h]
    nofun
  rw [readDocument, bind_ok (isFile_run p w), hfile]
  rfl

theorem readDocument_some {p : Path} {b : ByteArray} {text : String}
    (h : w.files.bytesAt? (w.files.key p) = some b) (hd : decode b = .ok text)
    (hink : Text.hasInk text = true) : (readDocument p).run w = .ok (some text) w := by
  rw [readDocument, bind_ok (isFile_run p w), FileTree.isFile_iff.mpr ⟨b, h⟩, if_pos rfl]
  change (lift Failure.file (w.files.readBytes p) >>= _).run w = _
  rw [FileTree.readBytes_eq_ok.mpr h, bind_ok (lift_ok _ b w), hd]
  change (if Text.hasInk text then pure (some text) else _ : Op (Option String)).run w = _
  rw [if_pos hink]
  rfl

/-- A graph that is opened where there is no document is empty. -/
theorem openGraph_none {root : Path} {i : String} {t : FileTree} (ht : w.files.makeDirs root = .ok t)
    (h : t.bytesAt? (t.key (root.child "graph.json")) = none) :
    (openGraph root i).run w =
      .ok ⟨⟩ { w with files := t, graph := { root, instanceId := i } } := by
  have hread : (readDocument (documentPath { root, instanceId := i })).run { w with files := t } =
      .ok none { w with files := t } := readDocument_none h
  rw [openGraph, bind_ok (makeDirs_run ht), bind_ok hread]
  rfl

/-- A graph that is opened where there is a document holds what is read from it. -/
theorem openGraph_some {root : Path} {i text : String} {t : FileTree} {u : Tables} {b : ByteArray}
    (ht : w.files.makeDirs root = .ok t)
    (h : t.bytesAt? (t.key (root.child "graph.json")) = some b) (hd : decode b = .ok text)
    (hink : Text.hasInk text = true) (hu : Tables.readDocument text = .ok (pure u)) :
    (openGraph root i).run w =
      .ok ⟨⟩ { w with files := t, graph := { root, instanceId := i, tables := u } } := by
  have hread : (readDocument (documentPath { root, instanceId := i })).run { w with files := t } =
      .ok (some text) { w with files := t } := readDocument_some h hd hink
  rw [openGraph, bind_ok (makeDirs_run ht), bind_ok hread]
  change (lift _ (Tables.readDocument text) >>= _).run _ = _
  rw [hu]
  rfl

/-- A graph that is opened where there is no document is empty. -/
theorem openGraph_first {v : Workspace} {root : Path} {i : String}
    (hv : v.files.isFile (root.child "graph.json") = false)
    (h : (openGraph root i).run v = .ok ⟨⟩ w₀) : ∃ t, v.files.makeDirs root = .ok t ∧
      t.bytesAt? (t.key (root.child "graph.json")) = none ∧
        w₀ = { v with files := t, graph := { root, instanceId := i } } := by
  obtain ⟨_, w₁, hdirs, -⟩ := bind_eq_ok.mp h
  obtain ⟨t, ht, -⟩ := makeDirs_eq_ok hdirs
  have hnone : t.bytesAt? (t.key (root.child "graph.json")) = none := by
    rw [FileTree.key_makeDirs ht, FileTree.makeDirs_eq_ok ht, FileTree.bytesAt?_addDirs]
    rw [← Bool.not_eq_true, FileTree.isFile_iff] at hv
    exact Option.eq_none_iff_forall_ne_some.mpr fun b hb => hv ⟨b, hb⟩
  rw [openGraph_none ht hnone] at h
  cases h
  exact ⟨t, ht, hnone, rfl⟩

/-- A graph that was opened where there is no document is kept from the start. -/
theorem kept_openGraph {v : Workspace} {root : Path} {i : String}
    (hv : v.files.isFile (root.child "graph.json") = false)
    (h : (openGraph root i).run v = .ok ⟨⟩ w₀) : w₀.Kept := by
  obtain ⟨t, ht, hnone, rfl⟩ := openGraph_first hv h
  exact { sound := sound_emptied { v with files := t, graph := { root, instanceId := i } }
          named := fun hn => by cases hn
          rooted := fun k hk => FileTree.entryAt_makeDirs ht (FileTree.key_makeDirs ht root ▸ hk)
          inStep := fun _ => .inr ⟨hnone, rfl⟩
          written := fun _ hu => by cases hu }

/-- Outside all transactions, whatever happened since a graph was opened empty, a graph that is opened
in the same directory has the same nodes, edges and records in the same order, found by the same keys.
Their structured content is plain, their stamps are dates, and no directory stands in the place of the
document. -/
theorem reopened {v : Workspace} {root : Path} {i : String}
    (hv : v.files.isFile (root.child "graph.json") = false)
    (hopen : (openGraph root i).run v = .ok ⟨⟩ w₀) (h : History w₀ w) (hd : w.graph.depth = 0)
    (hb : ¬ w.Blocked) (hp : w.tables.Plain) (j : String) :
    ∃ w', (openGraph w.graph.root j).run w = .ok ⟨⟩ w' ∧ w.tables.Agree w'.tables := by
  have hk := h.kept (kept_openGraph hv hopen)
  have hsaved : w.graph.unsaved = false := by
    rw [← Bool.not_eq_true]
    exact fun hu => hb (hk.written hd hu)
  have hdirs := FileTree.makeDirs_of_dirs hk.rooted
  rcases hk.inStep hsaved with hbytes | ⟨hnone, htables⟩
  · obtain ⟨u, hread, hagree⟩ := Tables.readDocument_document hk.sound.wellFormed hp.lossless hk.named
    refine ⟨_, openGraph_some hdirs hbytes ?_ (Tables.hasInk_document _) hread, hagree⟩
    rw [decode_toUTF8, Tables.unifyLineBreaks_document hp.lossless]
  · refine ⟨_, openGraph_none hdirs hnone, ?_⟩
    change w.tables.Agree {}
    rw [htables]
    exact Tables.agree_refl {}

/-! ## A graph with a project -/

/-- The stamp lies in the first day. -/
def isEarly (s : Stamp) : Bool :=
  s.offset == some 0 && decide (0 ≤ s.micros) && decide (s.micros < 86400000000)

theorem dated_of_isEarly {s : Stamp} (h : isEarly s = true) : s.Dated := by
  obtain ⟨micros, offset⟩ := s
  simp only [isEarly, Bool.and_eq_true, beq_iff_eq, decide_eq_true_eq] at h
  obtain ⟨⟨rfl, h₀⟩, h₁⟩ := h
  have hday : Stamp.localDay ⟨micros, some 0⟩ = 0 := by
    rw [Stamp.localDay, Stamp.perSecond, Int.fdiv_eq_ediv_of_nonneg _ (by decide)]
    simp only [Option.getD_some]
    omega
  refine ⟨?_, ?_, fun m hm => by cases hm; decide⟩ <;> rw [hday] <;> decide

/-- The graph has no records, its nodes keep at most a path, and all of it was made in the first day. -/
def isSimple (t : Tables) : Bool :=
  (t.allNodes.all fun n => isEarly n.created && isEarly n.updated && n.contentUpdated.isNone &&
      match n.json with
      | none | some [("path", .str _)] => true
      | _ => false) &&
    (t.allEdges.all fun e => isEarly e.created) && t.allRecords.isEmpty

theorem plain_of_isSimple {t : Tables} (h : isSimple t = true) : t.Plain := by
  simp only [isSimple, Bool.and_eq_true, List.all_eq_true, List.isEmpty_iff,
    Option.isNone_iff_eq_none] at h
  obtain ⟨⟨hnodes, hedges⟩, hrecords⟩ := h
  refine ⟨fun n hn => ?_, fun e he => dated_of_isEarly (hedges e he), fun r hr => ?_⟩
  · obtain ⟨⟨⟨hcreated, hupdated⟩, hnone⟩, hjson⟩ := hnodes n hn
    refine ⟨fun ms hms => ?_, by rw [hnone]; nofun, dated_of_isEarly hcreated,
      dated_of_isEarly hupdated⟩
    rw [hms] at hjson
    split at hjson
    · cases ‹some ms = none›
    · cases ‹some ms = _›
      exact ⟨by simp [Assoc.Proper], trivial, trivial⟩
    · cases hjson
  · rw [hrecords] at hr
    cases hr

theorem isFile_blank (p : Path) : Project.blank.files.isFile p = false := FileTree.isFile_empty ..

/-- Where there are no files, a graph can be opened in any directory. -/
theorem openGraph_blank (root : Path) (i : String) :
    (openGraph root i).run Project.blank = .ok ⟨⟩ ((openGraph root i).after Project.blank) := by
  have ht := FileTree.makeDirs_empty (.ofText "/work") 1 1 root
  have hrun := openGraph_none (w := Project.blank) (i := i) ht
    ((FileTree.bytesAt?_addDirs ..).trans (FileTree.bytesAt?_empty ..))
  rw [after_of_run hrun, hrun]

/-- A workspace with a graph that was opened empty. -/
def fresh : Workspace := (openGraph (.ofText "/work/store") "default").after Project.blank

theorem openGraph_fresh :
    (openGraph (.ofText "/work/store") "default").run Project.blank = .ok ⟨⟩ fresh :=
  openGraph_blank _ _

/-- A project is set up in the graph. -/
def settled : Workspace := (Request.setup "demo" (.ofText "/work/demo")).op.after fresh

theorem history_settled : History fresh settled :=
  .request .start (.setup "demo" (.ofText "/work/demo")) trivial

theorem not_blocked_of_isDir {w : Workspace} (h : w.files.isDir (documentPath w.graph) = false) :
    ¬ w.Blocked := by
  intro hb
  rw [Blocked, documentKey, ← FileTree.entry?] at hb
  rw [FileTree.isDir, hb] at h
  cases h

/-- The graph with a project is opened again. -/
theorem reopened_settled : settled.tables.allNodes.isEmpty = false ∧ ∃ w',
    (openGraph settled.graph.root "default").run settled = .ok ⟨⟩ w' ∧
      settled.tables.Agree w'.tables := by
  obtain ⟨hdepth, hdir, hsimple, hnodes⟩ : settled.graph.depth = 0 ∧
      settled.files.isDir (documentPath settled.graph) = false ∧ isSimple settled.tables = true ∧
      settled.tables.allNodes.isEmpty = false := by decide +kernel
  exact ⟨hnodes, reopened (isFile_blank _) openGraph_fresh history_settled hdepth (not_blocked_of_isDir hdir)
    (plain_of_isSimple hsimple) "default"⟩

/-- While a transaction is open, a project is set up in the place of the document. -/
def displaced : Workspace :=
  endTransaction.after ((Request.setup "demo" (.ofText "/work/store/graph.json")).op.after
    (beginTransaction.after fresh))

/-- With a directory in the place of the document, the transaction ends without writing it: no
transaction is open, but a graph that is opened in the same directory has none of the nodes. -/
theorem lost_displaced : History fresh displaced ∧ displaced.graph.depth = 0 ∧
    displaced.tables.Plain ∧ ∃ w', (openGraph displaced.graph.root "default").run displaced =
      .ok ⟨⟩ w' ∧ ¬ displaced.tables.Agree w'.tables := by
  obtain ⟨hopen, hdepth, hsimple, hok⟩ :
      ((Request.setup "demo" (.ofText "/work/store/graph.json")).op.after
        (beginTransaction.after fresh)).graph.depth ≠ 0 ∧
      displaced.graph.depth = 0 ∧ isSimple displaced.tables = true ∧
      (openGraph displaced.graph.root "default").gives displaced (fun _ w =>
        w.tables.allNodes.isEmpty && !displaced.tables.allNodes.isEmpty) = true := by decide +kernel
  refine ⟨.closed (.request (.opened .start) (.setup "demo" (.ofText "/work/store/graph.json")) trivial)
    hopen, hdepth, plain_of_isSimple hsimple, ?_⟩
  obtain ⟨⟨⟩, w, hrun, hempty⟩ := gives_eq_true.mp hok
  refine ⟨w, hrun, fun hagree => ?_⟩
  have hsame : w.tables.allNodes = displaced.tables.allNodes := by
    rw [Tables.allNodes, hagree.nodes, Tables.allNodes]
  rw [hsame, Bool.and_not_self] at hempty
  cases hempty

end Workspace

end IntentBuild
