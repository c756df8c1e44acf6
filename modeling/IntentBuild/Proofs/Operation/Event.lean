import IntentBuild.Proofs.Json.Canonical
import IntentBuild.Proofs.Store.Supply
import IntentBuild.Proofs.Store.WellFormed
import IntentBuild.Workspace

/-!
# Elementary changes of a workspace

Whatever an operation does to a workspace is a row of elementary changes, and `Event` lists their
kinds.  `Happens e w w'` says that the change `e` leads from `w` to `w'`, with all that the change
asks for: a new node has a name, a spent identifier and an existing parent, content is put in place of
content of a node with the same key, a node goes only when nothing refers to it.

`Reach A` is a row of changes that the class `A` admits.  Changes that touch neither the graph nor
a file of a project nor the model are *quiet*, and every class admits them.

A workspace is *sound* when its tables are well-formed, all identifiers in use are spent, and
what the nodes keep has a digest.
Every change keeps a sound workspace sound (`Happens.sound`), so what is proved of single changes
holds after any operation.
-/

namespace IntentBuild

open Assoc (keys)

/-! ## Sound workspaces -/

/-- The identifier stands in one of the tables. -/
def Tables.Uses (t : Tables) (id : String) : Prop :=
  id ∈ keys t.nodes ∨ id ∈ keys t.edges ∨ id ∈ keys t.records

namespace Workspace

/-- The tables of the graph. -/
abbrev tables (w : Workspace) : Tables := w.graph.tables

/-- The workspace with changed tables, which are not saved yet. -/
def withTables (w : Workspace) (t : Tables) : Workspace :=
  { w with graph := { w.graph with tables := t, unsaved := true } }

/-- The workspace with a number of open transactions. -/
def atDepth (w : Workspace) (d : Nat) : Workspace := { w with graph := { w.graph with depth := d } }

/-- The rules of the graph hold, no identifier in use will be given again, and the structured
content of every node is exact. -/
structure Sound (w : Workspace) : Prop where
  /-- The rules of the graph hold. -/
  wellFormed : w.tables.WellFormed
  /-- Identifiers in use are spent. -/
  spent : ∀ {id}, w.tables.Uses id → w.supply.Spent id
  /-- Structured content is exact. -/
  exact : ∀ {i n}, w.tables.node? i = some n → Json.ExactMembers n.members

end Workspace

/-! ## Events -/

/-- A kind of elementary change. -/
inductive Event where
  /-- A notice is added. -/
  | notice
  /-- Identifiers or times are taken. -/
  | supply
  /-- Calls are made, or the build is cancelled. -/
  | calls
  /-- A transaction begins or ends. -/
  | depth
  /-- Directories are made. -/
  | makeDirs
  /-- The document of the graph is written. -/
  | save
  /-- A file is written. -/
  | write (path : Path) (text : String)
  /-- A file is removed. -/
  | remove (path : Path)
  /-- A node is inserted. -/
  | node (n : Node)
  /-- A node gets other content. -/
  | content (old new : Node)
  /-- A node is deleted. -/
  | dropNode (n : Node)
  /-- An edge is inserted. -/
  | edge (e : Edge)
  /-- An edge is deleted. -/
  | dropEdge (e : Edge)
  /-- A record is stored. -/
  | record (r : GenerationRecord)
  /-- A record is deleted. -/
  | dropRecord (r : GenerationRecord)

/-- The change touches neither the graph nor a file of a project, and calls no model. -/
def Event.Quiet : Event → Prop
  | .notice | .supply | .depth | .makeDirs | .save => True
  | _ => False

/-- The change stores a record. -/
def Event.Records : Event → Prop
  | .record _ => True
  | _ => False

/-- The change writes or removes a file of a project. -/
def Event.Writes : Event → Prop
  | .write .. | .remove _ => True
  | _ => False

/-- The change leads from the first workspace to the second. -/
inductive Happens : Event → Workspace → Workspace → Prop
  | notice (w : Workspace) (n : Notice) : Happens .notice w { w with notices := n :: w.notices }
  | supply (w : Workspace) {s : Supply} (h : w.supply.Le s) :
      Happens .supply w { w with supply := s }
  | calls (w : Workspace) (cs : List Call) (b : Bool) :
      Happens .calls w { w with calls := cs, cancelled := b }
  | depth (w : Workspace) (d : Nat) : Happens .depth w (w.atDepth d)
  | makeDirs {w : Workspace} {p : Path} {t : FileTree} (h : w.files.makeDirs p = .ok t) :
      Happens .makeDirs w { w with files := t }
  | save {w : Workspace} {t : FileTree}
      (h : w.files.place (Op.documentPath w.graph)
        (Thunk.mk fun _ => w.graph.tables.document.toUTF8) w.files.nextTick = .ok t) :
      Happens .save w { w with files := t, graph := { w.graph with unsaved := false } }
  | write {w : Workspace} {p : Path} {text : String} {t : FileTree}
      (h : w.files.write p (FileTree.textContent text) = .ok t) :
      Happens (.write p text) w { w with files := t }
  | remove {w : Workspace} {p : Path} (h : w.files.isFile p = true) :
      Happens (.remove p) w { w with files := w.files.removeFile p }
  | node {w : Workspace} {n : Node} {t : Tables} {s : Supply} (h : w.tables.insertNode n = .ok t)
      (hs : w.supply.Takes s n.id) (hj : Json.ExactMembers n.members) (hn : n.name ≠ "") :
      Happens (.node n) w ({ w with supply := s }.withTables t)
  | content {w : Workspace} {old new : Node} (h : w.tables.node? new.id = some old)
      (hk : new.key = old.key) (hj : Json.ExactMembers new.members) :
      Happens (.content old new) w (w.withTables (w.tables.putNode new))
  | dropNode {w : Workspace} {n : Node} (h : w.tables.node? n.id = some n)
      (hu : w.tables.Unreferenced n.id) :
      Happens (.dropNode n) w (w.withTables (w.tables.dropNode n))
  | edge {w : Workspace} {e : Edge} {t : Tables} {s : Supply} (h : w.tables.insertEdge e = .ok t)
      (hs : w.supply.Takes s e.id) : Happens (.edge e) w ({ w with supply := s }.withTables t)
  | dropEdge {w : Workspace} {e : Edge} (h : Assoc.get? e.id w.tables.edges = some e) :
      Happens (.dropEdge e) w (w.withTables (w.tables.dropEdge e))
  | record {w : Workspace} {r : GenerationRecord} {s : Supply}
      (h : r.nodeId ∈ keys w.tables.nodes) (hs : w.supply.Takes s r.id) :
      Happens (.record (w.tables.kept r)) w
        ({ w with supply := s }.withTables (w.tables.setRecord (w.tables.kept r)))
  | dropRecord {w : Workspace} {r : GenerationRecord}
      (h : Assoc.get? r.id w.tables.records = some r) :
      Happens (.dropRecord r) w (w.withTables (w.tables.dropRecord r))

namespace Happens

variable {e : Event} {w w' : Workspace}

/-- A quiet change leaves the tables alone. -/
theorem tables_of_quiet (h : Happens e w w') (hq : e.Quiet) : w'.tables = w.tables := by
  cases h <;> first | rfl | exact hq.elim

/-- Identifiers are only taken from the supply. -/
theorem supply_le (h : Happens e w w') : w.supply.Le w'.supply := by
  cases h with
  | supply _ h => exact h
  | node _ hs _ _ | edge _ hs | record _ hs => exact hs.le
  | _ => exact Supply.le_refl _

theorem instanceId_eq (h : Happens e w w') : w'.graph.instanceId = w.graph.instanceId := by
  cases h <;> rfl

theorem root_eq (h : Happens e w w') : w'.graph.root = w.graph.root := by cases h <;> rfl

/-- Every change keeps a sound workspace sound. -/
theorem sound (h : Happens e w w') (hw : w.Sound) : w'.Sound := by
  obtain ⟨hf, hs, hx⟩ := hw
  cases h with
  | notice | calls | depth | makeDirs | save | write | remove => exact ⟨hf, hs, hx⟩
  | supply _ h => exact ⟨hf, fun hu => (hs hu).mono h, hx⟩
  | @node _ n _ _ h hn hj _ =>
      refine ⟨Tables.wellFormed_insertNode hf h, fun {id} hu => ?_, fun {i m} hm => ?_⟩
      all_goals obtain ⟨rfl, -⟩ := Tables.insertNode_eq_ok h
      · rcases hu with hu | hu | hu
        · rcases Assoc.mem_keys_set.mp hu with rfl | hu
          · exact hn.spent
          · exact (hs (.inl hu)).mono hn.le
        · exact (hs (.inr (.inl hu))).mono hn.le
        · exact (hs (.inr (.inr hu))).mono hn.le
      · change Assoc.get? i (Assoc.set n.id n w.tables.nodes) = some m at hm
        rw [Assoc.get?_set] at hm
        split at hm
        · cases hm; exact hj
        · exact hx hm
  | @content _ old new h hk hj =>
      refine ⟨Tables.wellFormed_putNode hf h hk, fun {id} hu => hs ?_, fun {i m} hm => ?_⟩
      · rcases hu with hu | hu | hu
        · have := Assoc.keys_set_of_mem (Assoc.mem_keys_of_get? h) new
          exact .inl (this ▸ hu)
        · exact .inr (.inl hu)
        · exact .inr (.inr hu)
      · change (w.tables.putNode new).node? i = some m at hm
        rw [Tables.node?_putNode] at hm
        split at hm
        · cases hm; exact hj
        · exact hx hm
  | @dropNode _ n h hu =>
      refine ⟨Tables.wellFormed_dropNode hf h hu, fun hu => hs ?_, fun {i m} hm => ?_⟩
      · exact hu.imp_left fun hm => (Assoc.mem_keys_erase.mp hm).1
      · change (w.tables.dropNode n).node? i = some m at hm
        rw [Tables.node?_dropNode] at hm
        split at hm
        · cases hm
        · exact hx hm
  | @edge _ e t _ h hn =>
      obtain ⟨rfl, h1, h2, hk⟩ := Tables.insertEdge_eq_ok h
      have hi : e.id ∉ keys w.tables.edges := fun hm => hn.fresh (hs (.inr (.inl hm)))
      refine ⟨Tables.wellFormed_setEdge hf hi hk h1 h2, fun {id} hu => ?_, hx⟩
      rcases hu with hu | hu | hu
      · exact (hs (.inl hu)).mono hn.le
      · rcases Assoc.mem_keys_set.mp hu with rfl | hu
        · exact hn.spent
        · exact (hs (.inr (.inl hu))).mono hn.le
      · exact (hs (.inr (.inr hu))).mono hn.le
  | dropEdge h =>
      refine ⟨Tables.wellFormed_dropEdge hf h, fun hu => hs ?_, hx⟩
      exact hu.imp_right (Or.imp_left fun hm => (Assoc.mem_keys_erase.mp hm).1)
  | @record _ r s h hn =>
      have hi : r.id ∉ keys w.tables.records := fun hm => hn.fresh (hs (.inr (.inr hm)))
      refine ⟨Tables.wellFormed_setRecord hf hi h, fun {id} hu => ?_, hx⟩
      rcases hu with hu | hu | hu
      · exact (hs (.inl hu)).mono hn.le
      · exact (hs (.inr (.inl hu))).mono hn.le
      · rcases Assoc.mem_keys_set.mp hu with rfl | hu
        · exact spent_kept hf (fun hu => (hs hu).mono hn.le) hn.spent
        · exact (hs (.inr (.inr hu))).mono hn.le
  | dropRecord h =>
      refine ⟨Tables.wellFormed_dropRecord hf h, fun hu => hs ?_, hx⟩
      exact hu.imp_right (Or.imp_right fun hm => (Assoc.mem_keys_erase.mp hm).1)
where
  /-- A kept record has its own new identifier or that of a record in the table. -/
  spent_kept {w : Workspace} {s : Supply} {r : GenerationRecord} (hf : w.tables.WellFormed)
      (hs : ∀ {id}, w.tables.Uses id → s.Spent id) (hn : s.Spent r.id) :
      s.Spent (w.tables.kept r).id := by
    unfold Tables.kept
    split
    · rename_i id hid
      obtain ⟨old, ho, _⟩ := hf.records.inverse.mp hid
      exact hs (.inr (.inr (Assoc.mem_keys_of_get? ho)))
    · exact hn

end Happens

/-! ## Rows of events -/

/-- A row of changes, each of which is quiet or belongs to a class. -/
inductive Reach (A : Event → Prop) : Workspace → Workspace → Prop
  | refl (w : Workspace) : Reach A w w
  | step {w w' w'' : Workspace} {e : Event} (h : Reach A w w') (he : e.Quiet ∨ A e)
      (hs : Happens e w' w'') : Reach A w w''

namespace Reach

variable {A B : Event → Prop} {w w' w'' : Workspace}

theorem trans (h : Reach A w w') (h' : Reach A w' w'') : Reach A w w'' := by
  induction h' with
  | refl => exact h
  | step _ he hs ih => exact .step ih he hs

theorem single {e : Event} (he : e.Quiet ∨ A e) (hs : Happens e w w') : Reach A w w' :=
  .step (.refl w) he hs

theorem quiet {e : Event} (he : e.Quiet) (hs : Happens e w w') : Reach A w w' :=
  single (.inl he) hs

theorem mono (hAB : ∀ e, A e → B e) (h : Reach A w w') : Reach B w w' := by
  induction h with
  | refl => exact .refl _
  | step _ he hs ih => exact .step ih (he.imp_right (hAB _)) hs

theorem sound (h : Reach A w w') (hw : w.Sound) : w'.Sound := by
  induction h with
  | refl => exact hw
  | step _ _ hs ih => exact hs.sound ih

theorem supply_le (h : Reach A w w') : w.supply.Le w'.supply := by
  induction h with
  | refl => exact Supply.le_refl _
  | step _ _ hs ih => exact Supply.le_trans ih hs.supply_le

theorem instanceId_eq (h : Reach A w w') : w'.graph.instanceId = w.graph.instanceId := by
  induction h with
  | refl => rfl
  | step _ _ hs ih => exact hs.instanceId_eq.trans ih

end Reach

/-! ## Lasting conditions -/

/-- A condition that no change of a class ends. -/
def Lasts (A : Event → Prop) (P : Workspace → Prop) : Prop :=
  ∀ {e w w'}, e.Quiet ∨ A e → w.Sound → Happens e w w' → P w → P w'

theorem Lasts.reach {A : Event → Prop} {P : Workspace → Prop} (hP : Lasts A P)
    {w w' : Workspace} (hw : w.Sound) (h : Reach A w w') (hp : P w) : P w' := by
  induction h with
  | refl => exact hp
  | step h he hs ih => exact hP he (h.sound hw) hs ih

/-! ## Handles -/

/-- A value that was read as a node.  The node may be gone by now, or have other content, but its
identifier never stands for a node with another key. -/
structure Handle (n : Node) (w : Workspace) : Prop where
  /-- A node with the identifier has the key. -/
  key : ∀ {m}, w.tables.node? n.id = some m → m.key = n.key
  /-- The identifier will not be given to another node. -/
  spent : w.supply.Spent n.id

namespace Handle

variable {A : Event → Prop} {n : Node} {w w' : Workspace}

theorem of_node? (hw : w.Sound) (h : w.tables.node? n.id = some n) : Handle n w where
  key hm := by rw [h, Option.some.injEq] at hm; rw [hm]
  spent := hw.spent (.inl (Assoc.mem_keys_of_get? h))

/-- A handle stays a handle, whatever happens. -/
theorem happens {e : Event} (hs : Happens e w w') (hn : Handle n w) : Handle n w' := by
  refine ⟨fun {m} hm => ?_, hn.spent.mono hs.supply_le⟩
  cases hs with
  | @node _ n' t s h hs' _ _ =>
      obtain ⟨rfl, -⟩ := Tables.insertNode_eq_ok h
      change Assoc.get? n.id (Assoc.set n'.id n' w.tables.nodes) = some m at hm
      rw [Assoc.get?_set] at hm
      split at hm
      · rename_i hid
        exact absurd (hid ▸ hn.spent) hs'.fresh
      · exact hn.key hm
  | @content _ old new h hk _ =>
      change (w.tables.putNode new).node? n.id = some m at hm
      rw [Tables.node?_putNode] at hm
      split at hm
      · rename_i hid
        rw [Option.some.injEq] at hm
        subst hm
        rw [hk]
        exact hn.key (hid ▸ h)
      · exact hn.key hm
  | @dropNode _ d h hu =>
      change (w.tables.dropNode d).node? n.id = some m at hm
      rw [Tables.node?_dropNode] at hm
      split at hm
      · cases hm
      · exact hn.key hm
  | edge h => obtain ⟨rfl, -⟩ := Tables.insertEdge_eq_ok h; exact hn.key hm
  | _ => exact hn.key hm

theorem reach (h : Reach A w w') (hn : Handle n w) : Handle n w' := by
  induction h with
  | refl => exact hn
  | step _ _ hs ih => exact ih.happens hs

end Handle

end IntentBuild
