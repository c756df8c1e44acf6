import IntentBuild.Proofs.Dependency.Drift
import IntentBuild.Proofs.Dependency.Package
import IntentBuild.Proofs.Operation.Batch
import IntentBuild.Proofs.Operation.Persistence

/-!
# A synchronisation that fails

A synchronisation writes the file of the dependencies, then raises the package file, and then keeps the
map as the synced one.  It may fail in each of these steps (`sync_eq_error`).  Before the first one neither the
file nor the synced map has changed, and the last one keeps the map even where the document cannot be
written (`not_writable_of_setContent`).  Only where the package file cannot be raised is a file left that
the synced map does not know of.

So where the package file can be raised, a synchronisation that fails leaves no drift
(`failed_sync_without_drift`).
-/

namespace IntentBuild

open Op
open Assoc (keys Proper)

namespace Op

variable {α β : Type} {p : Path} {text : String} {e : Failure} {w w' : Workspace}

/-! ## Texts that cannot be written -/

/-- The graph is the same, and every file has the same bytes. -/
structure SameBytes (w w' : Workspace) : Prop where
  /-- The graph. -/
  graph : w'.graph = w.graph
  /-- The directory that paths are seen from. -/
  workingDirectory : w'.files.workingDirectory = w.files.workingDirectory
  /-- The files. -/
  bytes : ∀ k, w'.files.bytesAt? k = w.files.bytesAt? k

theorem SameBytes.refl (w : Workspace) : SameBytes w w := ⟨rfl, rfl, fun _ => rfl⟩

theorem sameBytes_of_makeDirs {t : FileTree} (h : w.files.makeDirs p = .ok t) :
    SameBytes w { w with files := t } := by
  rw [FileTree.makeDirs_eq_ok h]
  exact ⟨rfl, FileTree.workingDirectory_addDirs .., FileTree.bytesAt?_addDirs _ _⟩

/-- A text that cannot be put at a path leaves all files as they were. -/
theorem sameBytes_of_put (h : (put p text).run w = .error e w') : SameBytes w w' := by
  obtain h | ⟨_, w₁, hdirs, h⟩ := bind_eq_error.mp h
  · cases hmake : w.files.makeDirs p.parent with
    | ok t => cases h.symm.trans (makeDirs_run hmake)
    | error f =>
        have hfails : (makeDirs p.parent).run w = .error (.file f) w := by
          rw [makeDirs, bind_ok (show files.run w = .ok w.files w from rfl), hmake]
          rfl
        cases h.symm.trans hfails
        exact .refl w
  · obtain ⟨t, hmake, rfl⟩ := makeDirs_eq_ok hdirs
    rw [bind_ok (show files.run _ = .ok t { w with files := t } from rfl)] at h
    obtain h | ⟨t', w₂, -, h⟩ := bind_eq_error.mp h
    · obtain rfl := (Reader.lift _ _).eq_of_error h
      exact sameBytes_of_makeDirs hmake
    · cases h

/-- A text that cannot be written leaves all files as they were. -/
theorem sameBytes_of_writeIfChanged (h : (writeIfChanged p text).run w = .error e w') :
    SameBytes w w' := by
  cases hf : w.files.isFile p with
  | false => exact sameBytes_of_put (writeIfChanged_of_no_file hf ▸ h)
  | true =>
      have hfile : (isFile p).run w = .ok true w := by rw [← hf]; rfl
      cases hread : (readText p).run w with
      | error f w₁ =>
          obtain rfl := (reader_readText p).eq_of_error hread
          rw [writeIfChanged, bind_ok hfile, if_pos rfl, bind_error hread] at h
          cases h
          exact .refl _
      | ok s w₁ =>
          obtain ⟨rfl, -⟩ := readText_eq_ok hread
          rw [writeIfChanged_of_text hread] at h
          split at h
          · cases h
          · exact sameBytes_of_put h

end Op

/-! ## Contents that cannot be saved -/

namespace Graph

variable {e : Failure} {n old : Node} {w w' : Workspace}

theorem not_writable_of_commit {t : Tables} (h : (commit t).run w = .error e w') : ¬ w'.Writable := by
  rw [commit_eq] at h
  split at h
  · exact not_writable_of_save h
  · cases h

theorem not_writable_of_updateNode (ho : w.tables.node? n.id = some old) (hk : n.key = old.key)
    (h : (updateNode n).run w = .error e w') : ¬ w'.Writable := by
  have htables : Op.tables.run w = .ok w.tables w := rfl
  generalize hd : (Draft.orNow none : Draft Stamp).run w.supply = d
  have hstamp : (complete (Draft.orNow none)).run w = .ok d.1 { w with supply := d.2 } := by
    rw [← hd]
    rfl
  have htables' : Op.tables.run { w with supply := d.2 } = .ok w.tables { w with supply := d.2 } := rfl
  have hupdate : w.tables.updateNode { n with updated := d.1 } =
      .done (w.tables.putNode { n with updated := d.1 }) := Tables.updateNode_of_key_eq ho hk
  rw [updateNode, bind_ok htables, ho] at h
  dsimp only at h
  rw [bind_ok hstamp, bind_ok htables', hupdate, remove] at h
  obtain h | ⟨_, _, -, h⟩ := bind_eq_error.mp h
  · obtain h | ⟨_, _, -, h⟩ := bind_eq_error.mp h
    · exact not_writable_of_commit h
    · cases h
  · cases h

/-- The content of a stored node cannot be changed only where the document cannot be written. -/
theorem not_writable_of_setContent {content : Change String} {json : Change Members}
    {stamp : Change Stamp} (hs : w.Sound) (ho : w.tables.node? n.id = some old)
    (hj : Json.ExactMembers (json.value?.getD []))
    (h : (setContent n content json stamp).run w = .error e w') : ¬ w'.Writable := by
  obtain ⟨hash, hh⟩ := membersHash_eq_ok.mpr hj
  have hr : Revised content json stamp old _ := revised_put hh old old.updated
  have hid : old.id = n.id := hs.wellFormed.nodes.owned ho
  rw [setContent, hh, bind_ok (lift_ok ..), bind_ok (require_run ho)] at h
  exact not_writable_of_updateNode (by rw [← hid, ← hr.id] at ho; exact ho) hr.key h

end Graph

namespace DepsFile

variable {P : Path} {p : Node} {u : Dependencies} {e : Failure} {w w' : Workspace}

theorem spared_of_sameBytes (h : SameBytes w w') : Spared P p w w' where
  bytes := by
    rw [bytes?, bytes?, FileTree.key_congr h.workingDirectory, h.bytes]
  entry := by
    rw [Manifest.syncedEntry, Manifest.syncedEntry, Workspace.tables, Workspace.tables, h.graph]

/-! ## The package file -/

/-- The package file of a project in a directory. -/
def packageIn (P : Path) : Path := (fileIn P).parent.parent.child "package.json"

/-- The package file, where it is there, is an object whose dependencies are an object if there are any. -/
def Raisable (P : Path) (w : Workspace) : Prop :=
  ∀ bytes, w.files.bytesAt? (w.files.key (packageIn P)) = some bytes →
    ∃ text data, decode bytes = .ok text ∧ Json.parse? text = some (.obj data) ∧ ¬ Package.Broken data

theorem packageIn_eq (P : Path) : packageIn P = P.below ["package.json"] := by
  have hparent : (fileIn P).parent.parent = P := by
    rw [fileIn_eq]
    simp [Path.parent, Path.below]
  rw [packageIn, hparent, Path.child_name P (by decide)]

theorem endsInName_packageIn (P : Path) : (packageIn P).EndsInName := by
  have hname : (packageIn P).name = "package.json" := by
    rw [packageIn_eq, Path.name, Path.below, List.getLastD_concat]
  exact ⟨hname ▸ by decide, hname ▸ by decide⟩

/-- A package file that can be raised is raised. -/
theorem Raisable.update_run (h : Raisable P w) (hw : w.files.Housed) (hu : Proper u) :
    ∃ b w', (Package.update (packageIn P) u).run w = .ok b w' := by
  cases hf : w.files.isFile (packageIn P) with
  | false =>
      refine ⟨false, w, ?_⟩
      rw [Package.update, bind_ok (isFile_run _ w), hf]
      rfl
  | true =>
      obtain ⟨bytes, hbytes⟩ := FileTree.isFile_iff.mp hf
      obtain ⟨text, data, hdecode, hparse, hbroken⟩ := h bytes hbytes
      have hread := Package.readObject_run (readText_run hbytes hdecode) hparse
      obtain ⟨hfails, -⟩ := Package.update_only_raises hw (endsInName_packageIn P) hu hread
      cases hrun : (Package.update (packageIn P) u).run w with
      | ok b w' => exact ⟨b, w', rfl⟩
      | error e w' => exact absurd (hfails.mp ⟨e, w', hrun⟩) hbroken

/-! ## Where a synchronisation fails -/

/-- The file holds a map that is kept as the synced one. -/
def InStep (P : Path) (p : Node) (w : Workspace) : Prop :=
  ∃ u bytes, bytes? P w = some bytes ∧ decode bytes = .ok (render u) ∧ Proper u ∧
    Manifest.syncedEntry p w = some (.ofTexts u)

theorem InStep.agrees (h : InStep P p w) : Agrees P p w := by
  obtain ⟨u, bytes, hbytes, hdecode, hu, hentry⟩ := h
  intro bytes' hbytes'
  cases hbytes.symm.trans hbytes'
  refine ⟨u, by rw [hentry]; exact Manifest.textsOf_ofTexts u, ?_⟩
  exact holds_of_render hdecode hu hu (Assoc.same_self hu)

/-- The synced map is kept also where the document cannot be written. -/
theorem inStep_of_setJson {b : Node} {bytes : ByteArray} (hw : w.Sound)
    (hb : Manifest.Reconciled p b u w) (hbytes : bytes? P w = some bytes)
    (hdecode : decode bytes = .ok (render u))
    (h : (Graph.setJson b (Manifest.withTexts "synced" b u)).run w = .error e w') :
    InStep P p w' ∧ ¬ w'.Writable := by
  obtain ⟨hstored, hkey⟩ := hb.stored hw
  have hexact : Json.ExactMembers (Manifest.withTexts "synced" b u) :=
    Json.exactMembers_set (hw.exact hstored) (Json.exact_ofTexts u) _
  have hblocked : ¬ w'.Writable := by
    rw [Graph.setJson] at h
    refine Graph.not_writable_of_setContent hw hstored ?_ h
    exact hexact
  have hends : Ends w (Graph.setJson b (Manifest.withTexts "synced" b u)) _ _ :=
    Graph.ends_setContent hstored hexact
  have hkeeps : Runs (KeepsFile P) w (Graph.setJson b (Manifest.withTexts "synced" b u)) _ :=
    Graph.runs_setContent fun _ _ _ _ => trivial
  have hended := hends hw
  rw [h] at hended
  obtain ⟨⟨hreach, -⟩, -, b', hrevised, htables⟩ := hended
  have hreached : Reach (KeepsFile P) w w' := by
    have hafter := hkeeps.after hw
    rwa [Op.after, h] at hafter
  refine ⟨⟨u, bytes, (bytes?_reach hreached).trans hbytes, hdecode, hb.proper.1, ?_⟩, hblocked⟩
  have hfound := Manifest.found_of_put (hreach.sound hw)
    (by rw [hrevised.key, hkey, hreach.instanceId_eq]) htables
  rw [Manifest.syncedEntry_of_found hfound, Node.members, hrevised.json]
  exact Assoc.get?_set_same ..

/-- A package file that can be raised still can be once the file of the dependencies is written. -/
theorem Raisable.written {b : Bool} {text : String} (h : Raisable P w)
    (hwrite : (writeIfChanged (fileIn P) text).run w = .ok b w') : Raisable P w' := by
  intro bytes hbytes
  obtain ⟨t, rfl, hwrote⟩ := writeIfChanged_eq_ok hwrite
  refine h bytes ?_
  have hne : w.files.key (packageIn P) ≠ w.files.key (fileIn P) := key_package_ne _ P
  change t.bytesAt? (t.key (packageIn P)) = some bytes at hbytes
  rwa [FileTree.key_congr hwrote.workingDirectory, hwrote.other _ hne] at hbytes

/-- Where the package file can be raised, writing both files fails before the first of them is changed. -/
theorem spared_of_write (hr : Raisable P w) (hw : w.files.Housed) (hu : Proper u)
    (h : (write (fileIn P) u).run w = .error e w') : Spared P p w w' := by
  obtain h | ⟨b, w₁, hwrite, h⟩ := bind_eq_error.mp h
  · exact spared_of_sameBytes (sameBytes_of_writeIfChanged h)
  · obtain ⟨b', w₂, hupdate⟩ :=
      (hr.written hwrite).update_run (housed_of_written hw hwrite) hu
    cases h.symm.trans (bind_ok hupdate)

/-- A synchronisation that fails once the manifest is reconciled. -/
theorem failed_rest {b : Node} (hw : w.Sound) (hb : Manifest.Reconciled p b u w) (hr : Raisable P w)
    (hh : w.files.Housed)
    (h : (do
      if !isSynced b u || !(← isFile (fileIn P)) then write (fileIn P) u
      if !isSynced b u then
        let _ ← Graph.setJson b (Manifest.withTexts "synced" b u)
      return { changed := !isSynced b u, path := fileIn P, deps := u } : Op Sync).run w = .error e w') :
    Spared P p w w' ∨ InStep P p w' ∧ ¬ w'.Writable := by
  rw [bind_ok (isFile_run _ w)] at h
  cases hs : isSynced b u with
  | true =>
      rw [hs] at h
      cases hf : w.files.isFile (fileIn P) with
      | true => rw [hf] at h; cases h
      | false =>
          rw [hf] at h
          obtain h | ⟨_, w₁, -, h⟩ := bind_eq_error.mp h
          · exact .inl (spared_of_write hr hh hb.proper.1 h)
          · cases h
  | false =>
      rw [hs] at h
      obtain h | ⟨_, w₁, hwrite, h⟩ := bind_eq_error.mp h
      · exact .inl (spared_of_write hr hh hb.proper.1 h)
      obtain h | ⟨_, w₂, -, h⟩ := bind_eq_error.mp h
      · obtain ⟨hg, bytes, hbytes, hdecode⟩ := write_eq_ok hb.proper.1 hwrite
        have hsafe : Safe .any (write (fileIn P) u) := safe_write (fun _ => ⟨trivial, trivial⟩) _
        have hw₁ := ((hsafe.runs w trivial).ok hw hwrite).1.sound hw
        have hb₁ : Manifest.Reconciled p b u w₁ :=
          hb.congr (by simp only [Workspace.tables, hg]) (by rw [hg])
        exact .inr (inStep_of_setJson hw₁ hb₁ hbytes hdecode h)
      · cases h

/-- Declaring dependencies leaves the package file alone. -/
theorem Raisable.declaring {α : Type} {x : Op α} (h : Raisable P w) (hw : w.Sound)
    (hx : Safe (.only (Event.Clears w.files.workingDirectory (w.files.key (packageIn P)))) x) :
    Raisable P (x.after w) := by
  have hreach := (hx.runs w trivial).after hw
  have hne : w.files.key (packageIn P) ≠ w.documentKey := by
    rw [packageIn_eq]
    exact @Workspace.key_ne_documentKey w P [] _ (by decide) (by decide)
  intro bytes hbytes
  refine h bytes ?_
  rwa [hreach.key_eq, FileTree.bytesAt?_eq_map, hreach.fileAt?_eq hne, ← FileTree.bytesAt?_eq_map] at hbytes

/-- Where the package file can be raised, a synchronisation that fails leaves the file and the synced map as
they were, or in step where the document cannot be written. -/
theorem sync_eq_error (hP : p.pathEntry = .path P) (hw : w.Sound) (hp : Handle p w)
    (hh : w.files.Housed) (hr : Raisable P w) (h : (sync p).run w = .error e w') :
    Spared P p w w' ∨ InStep P p w' ∧ ¬ w'.Writable := by
  have hdeclares (d : Path) (k : List String) : Regime.Declares (.only (Event.Clears d k)) :=
    ⟨fun _ _ _ => trivial, fun _ _ _ => trivial, fun _ => trivial, fun _ _ => trivial⟩
  have hspares {α : Type} {x : Op α} {v : Workspace} (hv : v.Sound) (hpv : Handle p v)
      (hx : Safe (sparing P p v.graph.instanceId) x) : Spared P p v (x.after v) :=
    .of_reach hv ((hx.runs v ⟨hpv, rfl⟩).after hv)
  have hreconcile := hspares hw hp
    (Manifest.safe_reconcile (declares_sparing P p w.graph.instanceId) p)
  obtain h | ⟨u, w₁, hu, h⟩ := bind_eq_error.mp h
  · rw [Op.after, h] at hreconcile
    exact .inl hreconcile
  obtain ⟨b₁, hb₁⟩ := Manifest.reconcile_eq_ok hw hu
  have hreach₁ := (((Manifest.safe_reconcile Regime.declares_any p).runs w trivial).ok hw hu).1
  have hw₁ := hreach₁.sound hw
  have hr₁ := hr.declaring hw (Manifest.safe_reconcile (hdeclares _ _) p)
  rw [after_of_run hu] at hreconcile hr₁
  have hnode := hspares hw₁ (hp.reach hreach₁)
    (Manifest.safe_node (declares_sparing P p w₁.graph.instanceId) p)
  obtain h | ⟨b, w₂, hb, h⟩ := bind_eq_error.mp h
  · rw [Op.after, h] at hnode
    exact .inl (hreconcile.trans hnode)
  obtain ⟨hreach₂, hfound⟩ := (Manifest.runs_node Regime.declares_any p w₁).ok hw₁ hb
  have hw₂ := hreach₂.sound hw₁
  have hr₂ := hr₁.declaring hw₁ (Manifest.safe_node (hdeclares _ _) p)
  rw [after_of_run hb] at hnode hr₂
  obtain ⟨rfl, ht₂⟩ := hfound.eq_old hw₁.wellFormed hb₁.found
  rw [bind_ok (path_run hP w₂)] at h
  have hspared := hreconcile.trans hnode
  exact (failed_rest hw₂ (hb₁.congr ht₂ hreach₂.instanceId_eq) hr₂
    (hreach₂.housed (hreach₁.housed hh)) h).imp_left hspared.trans

/-! ## What verifying says then -/

/-- Where the document can be written, verifying passes just where the file, if it is there, holds the
synced map. -/
theorem verify_iff_agrees (hP : p.pathEntry = .path P) (hw : w.Sound) (hp : Handle p w)
    (hstored : p.id ∈ keys w.tables.nodes) (hwritable : w.Writable) :
    (∃ w', (verify p).run w = .ok ⟨⟩ w') ↔ Agrees P p w := by
  refine ⟨fun ⟨w', h⟩ => verify_eq_ok hP hw hp h, fun hagrees => ?_⟩
  cases hb : bytes? P w with
  | none => exact ⟨w, verify_of_absent hP hb⟩
  | some bytes =>
      obtain ⟨S, hS, hholds⟩ := hagrees bytes hb
      exact verify_of_holds hP hw hp hstored hS hb hholds fun _ => hwritable

/-- The project stays in the graph, whether the synchronisation fails or not. -/
theorem stored_of_sync (hw : w.Sound) (hstored : p.id ∈ keys w.tables.nodes) :
    p.id ∈ keys ((sync p).after w).tables.nodes := by
  have hsafe : Safe (.only (Event.Leaves p.id)) (sync p) :=
    safe_sync ⟨fun _ _ _ => trivial, fun _ _ _ => trivial, fun _ => trivial, fun _ _ => trivial⟩
      (fun _ _ _ _ => trivial) fun _ _ => ⟨trivial, trivial⟩
  obtain ⟨n, hn⟩ := Assoc.exists_get?_of_mem_keys hstored
  obtain ⟨m, hm, -⟩ := Lasts.reach (lasts_keyed p.id n.key) hw ((hsafe.runs w trivial).after hw)
    ⟨n, hn, rfl⟩
  exact Assoc.mem_keys_of_get? hm

/-- Where the package file can be raised, a synchronisation that fails leaves no drift: a file that held the
synced map, or was not there, holds it or is not there after.  Verifying passes after the failure
just where it passed before, if the document can be written. -/
theorem failed_sync_without_drift (hP : p.pathEntry = .path P) (hw : w.Sound) (hp : Handle p w)
    (hstored : p.id ∈ keys w.tables.nodes) (hh : w.files.Housed) (hr : Raisable P w)
    (h : (sync p).run w = .error e w') :
    (Agrees P p w → Agrees P p w') ∧ (w.Writable → w'.Writable →
      ((∃ v, (verify p).run w' = .ok ⟨⟩ v) ↔ ∃ v, (verify p).run w = .ok ⟨⟩ v)) := by
  have hstays := stored_of_sync hw hstored
  have hreach := ((safe_sync Regime.declares_any (fun _ _ _ _ => trivial) fun _ _ =>
    ⟨trivial, trivial⟩ : Safe .any (sync p)).runs w trivial).after hw
  rw [Op.after, h] at hstays hreach
  obtain hspared | ⟨hstep, hblocked⟩ := sync_eq_error hP hw hp hh hr h
  · have hagrees : Agrees P p w' ↔ Agrees P p w := by
      rw [Agrees, Agrees, hspared.bytes, hspared.entry]
    refine ⟨hagrees.mpr, fun hwrite hwrite' => ?_⟩
    rw [verify_iff_agrees hP (hreach.sound hw) (hp.reach hreach) hstays hwrite', hagrees,
      verify_iff_agrees hP hw hp hstored hwrite]
  · exact ⟨fun _ => hstep.agrees, fun _ hwrite => absurd hwrite hblocked⟩

/-! ## A project with a directory in the place of the file -/

/-- The directory of the new project. -/
def demo : Path := .ofText "/work/demo"

/-- A new project with a directory in the place of the file of the dependencies. -/
def obstructed : Workspace := (makeDirs (fileIn demo)).after Project.sample

theorem unsynced_sample {p : Project}
    (h : (Project.setup "demo" demo).run Project.blank = .ok p Project.sample) :
    Unsynced demo p.node Project.sample := by
  obtain ⟨hpath, hnone, hbytes⟩ : demo.resolve Project.blank.files.workingDirectory = demo ∧
      Project.blank.tables.findNode? ⟨none, Project.blank.graph.instanceId, .project, "demo"⟩ = none ∧
      bytes? (demo.resolve Project.blank.files.workingDirectory) Project.sample = none := by
    decide +kernel
  exact hpath ▸ unsynced_of_setup Project.sound_blank hnone h hbytes

theorem reach_makeDirs (hw : w.Sound) (q : Path) : Reach Event.None w ((makeDirs q).after w) :=
  ((safe_makeDirs q : Safe (.only Event.None) (makeDirs q)).runs w trivial).after hw

theorem reach_setup (hw : w.Sound) (name : String) (q : Path) :
    Reach Event.Any w ((Project.setup name q).after w) :=
  ((Project.safe_setup (fun _ _ => trivial) (fun _ => trivial) name q : Safe .any _).runs w trivial).after hw

/-- Synchronising it fails, and verifying passes before and after. -/
theorem failed_sync_without_drift_obstructed : ∃ (p : Project) (e : Failure) (w : Workspace),
    (sync p.node).run obstructed = .error e w ∧ (∃ v, (verify p.node).run obstructed = .ok ⟨⟩ v) ∧
      ∃ v, (verify p.node).run w = .ok ⟨⟩ v := by
  obtain ⟨p, hp⟩ := Project.setup_blank
  have hnew := unsynced_sample hp
  have hreach := reach_makeDirs hnew.sound (fileIn demo)
  rw [← obstructed] at hreach
  have hhoused : obstructed.files.Housed := hreach.housed <|
    (reach_setup Project.sound_blank "demo" demo).housed (FileTree.housed_empty _ _ _)
  obtain ⟨hnone, hmissing, htest⟩ : bytes? demo obstructed = none ∧
      obstructed.files.bytesAt? (obstructed.files.key (packageIn demo)) = none ∧
      (Project.setup "demo" demo).gives Project.blank (fun p w =>
        save.gives ((makeDirs (fileIn demo)).after w) (fun _ _ => true) &&
          !(sync p.node).gives ((makeDirs (fileIn demo)).after w) (fun _ _ => true) &&
          save.gives ((sync p.node).after ((makeDirs (fileIn demo)).after w)) fun _ _ => true) = true := by
    decide +kernel
  have hraisable : Raisable demo obstructed := by
    intro bytes hb
    cases hmissing.symm.trans hb
  have hstored : p.node.id ∈ keys obstructed.tables.nodes := by
    rw [hreach.tables_of_quiet]
    exact hnew.tended.stored
  have hpass : (verify p.node).run obstructed = .ok ⟨⟩ obstructed := verify_of_absent hnew.path hnone
  obtain ⟨p', w, hp', htest⟩ := gives_eq_true.mp htest
  cases hp.symm.trans hp'
  rw [← obstructed, Bool.and_eq_true_iff, Bool.and_eq_true_iff, Bool.not_eq_true'] at htest
  obtain ⟨⟨hsave, hfails⟩, hsave'⟩ := htest
  cases hsync : (sync p.node).run obstructed with
  | ok s w =>
      have hgives : (sync p.node).gives obstructed (fun _ _ => true) = true :=
        gives_eq_true.mpr ⟨s, w, hsync, rfl⟩
      rw [hgives] at hfails
      cases hfails
  | error e w =>
      rw [Op.after, hsync] at hsave'
      obtain ⟨_, v, hv, -⟩ := gives_eq_true.mp hsave
      obtain ⟨_, v', hv', -⟩ := gives_eq_true.mp hsave'
      have hiff := (failed_sync_without_drift hnew.path (hreach.sound hnew.sound)
        (hnew.tended.handle.reach hreach) hstored hhoused hraisable hsync).2
      exact ⟨p, e, w, hsync, ⟨_, hpass⟩, (hiff ⟨v, hv⟩ ⟨v', hv'⟩).mpr ⟨_, hpass⟩⟩

end DepsFile

end IntentBuild
