import IntentBuild.Proofs.Dependency.Ledger
import IntentBuild.Proofs.Files.Path
import IntentBuild.Proofs.Files.Tree
import IntentBuild.Proofs.Operation.Safe

/-!
# What leaves the file of the dependencies alone

The changes that leave the file alone are a class (`DepsFile.KeepsFile`), and so are those that
leave the synced map of the manifest alone (`DepsFile.KeepsMap`).  Rows of such changes keep the bytes
of the file (`bytes?_reach`) and the member of the manifest (`syncedEntry_reach`).  A deletion that
starts elsewhere spares the project and its manifest (`runs_cascadeDelete_falls`).
-/

namespace IntentBuild

open Op

/-! ## Paths -/

/-- The file of the dependencies of a project in a directory. -/
def DepsFile.fileIn (P : Path) : Path := (P.child ".intentcode").child "deps.json"

theorem DepsFile.fileIn_eq (P : Path) : DepsFile.fileIn P = P.below [".intentcode", "deps.json"] := by
  rw [fileIn, Path.child_name P (by decide), Path.child_name _ (by decide),
    Path.below_below]
  rfl

namespace FileTree

theorem key_fileIn (t : FileTree) (P : Path) :
    t.key (DepsFile.fileIn P) = t.key P ++ [".intentcode", "deps.json"] := by
  rw [DepsFile.fileIn_eq]
  exact t.key_below P (by decide)

end FileTree

/-! ## Sparing the file and the synced map -/

namespace Manifest

/-- The member of the manifest of a project that keeps the synced map. -/
def syncedEntry (p : Node) (w : Workspace) : Option Json :=
  (w.tables.findNode? (address p w.graph.instanceId)).bind fun m => Assoc.get? "synced" m.members

theorem syncedEntry_eq_some {p : Node} {w : Workspace} (hw : w.Sound) {v : Json} :
    syncedEntry p w = some v ↔ ∃ m, w.tables.node? m.id = some m ∧
      m.key = address p w.graph.instanceId ∧ Assoc.get? "synced" m.members = some v := by
  rw [syncedEntry, Option.bind_eq_some_iff]
  simp only [Tables.findNode?_eq_some hw.wellFormed, and_assoc]

end Manifest

namespace DepsFile

/-- The change leaves the file alone. -/
def KeepsFile (P : Path) : Event → Prop
  | .write q _ | .remove q => ∀ t : FileTree, t.key q ≠ t.key (fileIn P)
  | _ => True

/-- The change leaves the synced map and the node of the project alone. -/
def KeepsMap (p : Node) (instanceId : String) : Event → Prop
  | .node n => n.key = Manifest.address p instanceId → Assoc.get? "synced" n.members = none
  | .content old new => old.key = Manifest.address p instanceId →
      Assoc.get? "synced" new.members = Assoc.get? "synced" old.members
  | .dropNode n => n.id ≠ p.id ∧ n.key ≠ Manifest.address p instanceId
  | _ => True

/-- The change leaves the file, the synced map and the node of the project alone. -/
def Spares (P : Path) (p : Node) (instanceId : String) (e : Event) : Prop :=
  KeepsFile P e ∧ KeepsMap p instanceId e

/-- The bytes of the file. -/
def bytes? (P : Path) (w : Workspace) : Option ByteArray :=
  w.files.bytesAt? (w.files.key (fileIn P))

variable {P : Path} {p : Node} {i : String} {e : Event} {w w' : Workspace}

/-- A change of the class keeps the bytes of the file. -/
theorem bytes?_happens (h : Happens e w w') (he : e.Quiet ∨ KeepsFile P e) :
    bytes? P w' = bytes? P w := by
  unfold bytes?
  cases h with
  | makeDirs h =>
      rw [FileTree.key_makeDirs h, FileTree.makeDirs_eq_ok h]
      exact FileTree.bytesAt?_addDirs ..
  | save h =>
      rw [FileTree.key_place h, FileTree.bytesAt?_place h, if_neg (Ne.symm ?_)]
      rw [Op.documentPath, Path.child_name _ (by decide), FileTree.key_below _ _ (by decide),
        FileTree.key_fileIn]
      intro hk
      have := congrArg List.getLast? hk
      simp at this
  | write h =>
      rw [FileTree.key_write h, FileTree.bytesAt?_write h, if_neg (Ne.symm ?_)]
      exact he.resolve_left id _
  | remove q =>
      refine (FileTree.bytesAt?_removeFile ..).trans (if_neg (Ne.symm ?_))
      exact he.resolve_left id w.files
  | _ => rfl

/-- A change of the class keeps the synced map. -/
theorem syncedEntry_happens (h : Happens e w w') (he : e.Quiet ∨ KeepsMap p i e) (hw : w.Sound)
    (hi : w.graph.instanceId = i) :
    Manifest.syncedEntry p w' = Manifest.syncedEntry p w := by
  have hw' := h.sound hw
  refine Option.ext fun v => ?_
  rw [Manifest.syncedEntry_eq_some hw, Manifest.syncedEntry_eq_some hw', h.instanceId_eq]
  cases h with
  | @node _ n t s h _ _ _ =>
      have he := he.resolve_left id
      obtain ⟨rfl, hnew, -⟩ := Tables.insertNode_eq_ok h
      refine exists_congr fun m => ?_
      change Assoc.get? m.id (Assoc.set n.id n w.tables.nodes) = some m ∧ _ ↔ _
      rw [Assoc.get?_set]
      split
      · rename_i hid
        constructor
        · rintro ⟨hm, hk, hv⟩
          cases hm
          rw [he (hi ▸ hk)] at hv
          cases hv
        · rintro ⟨hm, -⟩
          exact absurd (hid ▸ Assoc.mem_keys_of_get? hm) hnew
      · exact Iff.rfl
  | @content _ old new ho hk _ =>
      have he := he.resolve_left id
      have hold : old.id = new.id := hw.wellFormed.nodes.owned ho
      change (∃ m, (w.tables.putNode new).node? m.id = some m ∧ _) ↔ _
      simp only [Tables.node?_putNode]
      constructor
      · rintro ⟨m, hm, hmk, hv⟩
        split at hm
        · cases hm
          have hmk := hk.symm.trans hmk
          exact ⟨old, hold ▸ ho, hmk, (he (hi ▸ hmk)).symm.trans hv⟩
        · exact ⟨m, hm, hmk, hv⟩
      · rintro ⟨m, hm, hmk, hv⟩
        by_cases hid : m.id = new.id
        · rw [hid, ho, Option.some.injEq] at hm
          subst hm
          exact ⟨new, if_pos rfl, hk.trans hmk, (he (hi ▸ hmk)).trans hv⟩
        · exact ⟨m, (if_neg hid).trans hm, hmk, hv⟩
  | @dropNode _ n hn _ =>
      have he := he.resolve_left id
      refine exists_congr fun m => ?_
      change (w.tables.dropNode n).node? m.id = some m ∧ _ ↔ _
      rw [Tables.node?_dropNode]
      split
      · rename_i hid
        constructor
        · rintro ⟨hm, -⟩
          cases hm
        · rintro ⟨hm, hk, -⟩
          rw [hid, hn, Option.some.injEq] at hm
          exact absurd (hi ▸ hm ▸ hk) he.2
      · exact Iff.rfl
  | edge h => obtain ⟨rfl, -⟩ := Tables.insertEdge_eq_ok h; exact Iff.rfl
  | _ => exact Iff.rfl

theorem bytes?_reach (h : Reach (KeepsFile P) w w') : bytes? P w' = bytes? P w := by
  induction h with
  | refl => rfl
  | step _ he hs ih => exact (bytes?_happens hs he).trans ih

theorem syncedEntry_reach (hw : w.Sound) (h : Reach (KeepsMap p w.graph.instanceId) w w') :
    Manifest.syncedEntry p w' = Manifest.syncedEntry p w := by
  induction h with
  | refl => rfl
  | step h he hs ih => exact (syncedEntry_happens hs he (h.sound hw) h.instanceId_eq).trans ih

/-- The project stays, and its manifest if there is one. -/
theorem stays_happens (h : Happens e w w') (he : e.Quiet ∨ KeepsMap p i e) (hw : w.Sound) :
    (p.id ∈ Assoc.keys w.tables.nodes → p.id ∈ Assoc.keys w'.tables.nodes) ∧
      ((∃ b, w.tables.node? b.id = some b ∧ b.key = Manifest.address p i) →
        ∃ b, w'.tables.node? b.id = some b ∧ b.key = Manifest.address p i) := by
  cases h with
  | @node _ n t s h hs _ _ =>
      obtain ⟨rfl, hnew, -⟩ := Tables.insertNode_eq_ok h
      refine ⟨fun hp => Assoc.mem_keys_set.mpr (.inr hp), ?_⟩
      rintro ⟨b, hb, hk⟩
      refine ⟨b, ?_, hk⟩
      change Assoc.get? b.id (Assoc.set n.id n w.tables.nodes) = some b
      rw [Assoc.get?_set, if_neg]
      · exact hb
      · intro hid
        exact hnew (hid ▸ Assoc.mem_keys_of_get? hb)
  | @content _ old new ho hk _ =>
      have hold : old.id = new.id := hw.wellFormed.nodes.owned ho
      refine ⟨fun hp => Assoc.mem_keys_set.mpr (.inr hp), ?_⟩
      rintro ⟨b, hb, hbk⟩
      by_cases hid : b.id = new.id
      · rw [hid, ho, Option.some.injEq] at hb
        refine ⟨new, ?_, hk.trans (hb ▸ hbk)⟩
        exact (Tables.node?_putNode ..).trans (if_pos rfl)
      · exact ⟨b, (Tables.node?_putNode ..).trans ((if_neg hid).trans hb), hbk⟩
  | @dropNode _ n hn _ =>
      have he := he.resolve_left id
      refine ⟨fun hp => Assoc.mem_keys_erase.mpr ⟨hp, Ne.symm he.1⟩, ?_⟩
      rintro ⟨b, hb, hbk⟩
      refine ⟨b, (Tables.node?_dropNode ..).trans ((if_neg ?_).trans hb), hbk⟩
      intro hid
      rw [hid, hn, Option.some.injEq] at hb
      exact he.2 (hb ▸ hbk)
  | edge h => obtain ⟨rfl, -⟩ := Tables.insertEdge_eq_ok h; exact ⟨id, id⟩
  | _ => exact ⟨id, id⟩

theorem stays_reach (hw : w.Sound) (h : Reach (KeepsMap p i) w w') :
    (p.id ∈ Assoc.keys w.tables.nodes → p.id ∈ Assoc.keys w'.tables.nodes) ∧
      ((∃ b, w.tables.node? b.id = some b ∧ b.key = Manifest.address p i) →
        ∃ b, w'.tables.node? b.id = some b ∧ b.key = Manifest.address p i) := by
  induction h with
  | refl => exact ⟨id, id⟩
  | step h he hs ih =>
      have hstep := stays_happens hs he (h.sound hw)
      exact ⟨hstep.1 ∘ ih.1, hstep.2 ∘ ih.2⟩

/-! ## Deletions -/

/-- The change is part of a deletion that spares the project and its manifest. -/
abbrev Falls (p : Node) (instanceId : String) : Event → Prop :=
  Event.Drops fun n => n.id ≠ p.id ∧ n.key ≠ Manifest.address p instanceId

theorem Falls.keepsMap (he : Falls p i e) : KeepsMap p i e := by
  cases e with
  | dropNode n => exact he
  | dropEdge | dropRecord => trivial
  | _ => exact he.elim

theorem Falls.spares (he : Falls p i e) : Spares P p i e := by
  refine ⟨?_, he.keepsMap⟩
  cases e with
  | dropNode | dropEdge | dropRecord => trivial
  | _ => exact he.elim

/-- A deletion that starts neither at the project nor at its manifest spares both. -/
theorem runs_cascadeDelete_falls (hparent : p.parent = none) (hp : Handle p w) {n : Node}
    (includingSelf : Bool)
    (hn : ∀ {m}, w.tables.node? n.id = some m →
      m.id ≠ p.id ∧ m.key ≠ Manifest.address p i) :
    Runs (Falls p i) w (Graph.cascadeDelete n includingSelf) fun _ _ => True := by
  refine (Graph.runs_cascadeDelete_drops includingSelf
    (fun hid hkey h => ⟨hid ▸ h.1, hkey ▸ h.2⟩) (fun _ hq hc hpar => ⟨?_, ?_⟩) hn).weaken
    fun _ _ _ _ => trivial
  · intro hid
    have hnone := (congrArg NodeKey.parent (hp.key (hid ▸ hc))).trans hparent
    cases hpar.symm.trans hnone
  · intro hkey
    have hparent := hpar.symm.trans (congrArg NodeKey.parent hkey)
    exact hq.1 (Option.some.inj hparent)

/-! ## Regimes -/

/-- The file and the synced map are as they were. -/
structure Spared (P : Path) (p : Node) (w w' : Workspace) : Prop where
  /-- The bytes of the file. -/
  bytes : bytes? P w' = bytes? P w
  /-- The synced map. -/
  entry : Manifest.syncedEntry p w' = Manifest.syncedEntry p w

theorem Spared.trans {w₁ w₂ : Workspace} (h : Spared P p w w₁) (h' : Spared P p w₁ w₂) :
    Spared P p w w₂ :=
  ⟨h'.bytes.trans h.bytes, h'.entry.trans h.entry⟩

/-- Changes of the class spare the file and the synced map. -/
theorem Spared.of_reach (hw : w.Sound) (h : Reach (Spares P p w.graph.instanceId) w w') :
    Spared P p w w' :=
  ⟨bytes?_reach (h.mono fun _ he => he.1), syncedEntry_reach hw (h.mono fun _ he => he.2)⟩

/-- The changes that spare the file and the synced map, in the instance of the project. -/
def sparing (P : Path) (p : Node) (i : String) : Regime where
  admits := Spares P p i
  holds w := Handle p w ∧ w.graph.instanceId = i
  lasts _ hr h := ⟨h.1.reach hr, hr.instanceId_eq.trans h.2⟩

/-- Declaring dependencies spares the file and the synced map. -/
theorem declares_sparing (P : Path) (p : Node) (i : String) : (sparing P p i).Declares where
  manifest n ht hj := ⟨trivial, fun _ => by rw [Node.members, hj]; rfl⟩
  redeclare old new h := ⟨trivial, fun _ => h.other (by decide)⟩
  link _ := ⟨trivial, trivial⟩
  unlink _ _ := ⟨trivial, trivial⟩

/-- A safe operation spares the file and the synced map. -/
theorem Spared.of_safe {α : Type} {x : Op α} {a : α} (hx : Safe (sparing P p w.graph.instanceId) x)
    (hw : w.Sound) (hp : Handle p w) (h : x.run w = .ok a w') : Spared P p w w' :=
  .of_reach hw ((hx.runs w ⟨hp, rfl⟩).ok hw h).1

end DepsFile

end IntentBuild
