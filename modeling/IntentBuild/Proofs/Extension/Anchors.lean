import IntentBuild.Proofs.Build.Areas
import IntentBuild.Proofs.Setup

/-!
# Anchors

The nodes of projects, of their roots of intent files and of source files, of their containers and of their
extensions are *anchors*.  Whatever is asked for, but for the registry and for the setup of projects, no
anchor is made or deleted, and one is changed at most in the dependencies that it declares (`Event.Tends`).
So anchors stay where they are with what they hold, and there are no other extensions afterwards
(`Tables.Holds`).

What is above an anchor is an anchor, too.  With this and where the anchors keep their paths
(`Tables.Arranged`), no subtree that is deleted for a file holds an anchor.
-/

namespace IntentBuild

open Op
open Assoc (keys)

/-! ## What anchors hold -/

/-- Nodes of the type are anchors. -/
def NodeType.IsAnchor : NodeType → Prop
  | .project | .intentRoot | .sourceRoot | .extensions | .extension => True
  | _ => False

/-- Nodes of the type are kept by the registry. -/
def NodeType.IsExtension : NodeType → Prop
  | .extensions | .extension => True
  | _ => False

theorem NodeType.IsExtension.isAnchor {type : NodeType} (h : type.IsExtension) : type.IsAnchor := by
  cases type <;> first | exact trivial | exact h.elim

/-- The type of what is above an anchor. -/
def NodeType.seat? : NodeType → Option NodeType
  | .intentRoot | .sourceRoot | .extensions => some .project
  | .extension => some .extensions
  | _ => none

theorem NodeType.isAnchor_of_seat? {type above : NodeType} (h : type.seat? = some above) :
    above.IsAnchor := by
  cases type <;> cases h <;> trivial

/-- The nodes have one address, and the same members, but for the dependencies that they declare. -/
structure Node.Alike (n n' : Node) : Prop where
  /-- The address. -/
  key : n'.key = n.key
  /-- The members. -/
  members : ∀ {key}, key ≠ "deps" → Assoc.get? key n'.members = Assoc.get? key n.members

namespace Node.Alike

variable {n n' n'' : Node}

theorem refl (n : Node) : n.Alike n := ⟨rfl, fun _ => rfl⟩

theorem trans (h : n.Alike n') (h' : n'.Alike n'') : n.Alike n'' :=
  ⟨h'.key.trans h.key, fun hk => (h'.members hk).trans (h.members hk)⟩

theorem type_eq (h : n.Alike n') : n'.type = n.type := congrArg NodeKey.type h.key

/-- A node keeps its path. -/
theorem pathEntry_eq (h : n.Alike n') : n'.pathEntry = n.pathEntry := by
  rw [Node.pathEntry, Node.pathEntry, h.members (by decide)]

end Node.Alike

/-! ## Tables -/

namespace Tables

variable {t t' t'' : Tables} {k : NodeKey} {n : Node}

/-- Anchors stand below anchors, an extension is of the instance of its container, and the roots of files
keep paths. -/
structure Arranged (t : Tables) : Prop where
  /-- What is above an anchor is the anchor that its type asks for. -/
  above : ∀ {i p n q}, t.node? i = some n → n.type.IsAnchor → n.parent = some p → t.node? p = some q →
    n.type.seat? = some q.type
  /-- A container and its extensions are of one instance. -/
  instanceId : ∀ {i p n q}, t.node? i = some n → n.type = .extension → n.parent = some p →
    t.node? p = some q → n.instanceId = q.instanceId
  /-- The roots of intent files and of source files keep paths. -/
  placed : ∀ {i n}, t.node? i = some n → n.type = .intentRoot ∨ n.type = .sourceRoot →
    ∃ P, n.pathEntry = .path P ∧ P.names ≠ []

/-- All anchors stay with what they hold, and there are no other extensions. -/
structure Holds (t t' : Tables) : Prop where
  /-- An anchor stays. -/
  kept : ∀ {i n}, t.node? i = some n → n.type.IsAnchor → ∃ n', t'.node? i = some n' ∧ n.Alike n'
  /-- An extension was there. -/
  old : ∀ {i n'}, t'.node? i = some n' → n'.type.IsExtension → ∃ n, t.node? i = some n ∧ n.key = n'.key

theorem arranged_empty : Arranged {} where
  above h := by cases h
  instanceId h := by cases h
  placed h := by cases h

/-- Tables are arranged if every node was there before in arranged tables, and the roots of files keep
what they held. -/
theorem Arranged.back (h : t.Arranged) (hback : ∀ {i n'}, t'.node? i = some n' → ∃ n, t.node? i = some n ∧
    n.key = n'.key ∧ (n.type = .intentRoot ∨ n.type = .sourceRoot → n.Alike n')) : t'.Arranged where
  above {i p m q} hm ha hp hq := by
    obtain ⟨m₀, hm₀, hkey, -⟩ := hback hm
    obtain ⟨q₀, hq₀, hkey', -⟩ := hback hq
    have htype : m₀.type = m.type := congrArg NodeKey.type hkey
    have htype' : q₀.type = q.type := congrArg NodeKey.type hkey'
    have hseat := h.above hm₀ (htype ▸ ha) ((congrArg NodeKey.parent hkey).trans hp) hq₀
    rwa [htype, htype'] at hseat
  instanceId {i p m q} hm ht hp hq := by
    obtain ⟨m₀, hm₀, hkey, -⟩ := hback hm
    obtain ⟨q₀, hq₀, hkey', -⟩ := hback hq
    have hinstance := h.instanceId hm₀ ((congrArg NodeKey.type hkey).trans ht)
      ((congrArg NodeKey.parent hkey).trans hp) hq₀
    exact (congrArg NodeKey.instanceId hkey).symm.trans
      (hinstance.trans (congrArg NodeKey.instanceId hkey'))
  placed {i m} hm ht := by
    obtain ⟨m₀, hm₀, hkey, halike⟩ := hback hm
    have htype : m₀.type = m.type := congrArg NodeKey.type hkey
    obtain ⟨P, hP, hne⟩ := h.placed hm₀ (htype ▸ ht)
    exact ⟨P, (halike (htype ▸ ht)).pathEntry_eq.trans hP, hne⟩

/-- What stays of arranged tables is arranged. -/
theorem Arranged.mono (h : t.Arranged) (hsub : ∀ {i n}, t'.node? i = some n → t.node? i = some n) :
    t'.Arranged :=
  h.back fun {_ n} hn => ⟨n, hsub hn, rfl, fun _ => .refl n⟩

/-- A node that is inserted keeps tables arranged, if it stands and keeps what its type asks for. -/
theorem Arranged.insert (h : t.Arranged) (hf : t.WellFormed) (hins : t.insertNode n = .ok t')
    (habove : ∀ {p q}, n.type.IsAnchor → n.parent = some p → t.node? p = some q →
      n.type.seat? = some q.type)
    (hinstance : ∀ {p q}, n.type = .extension → n.parent = some p → t.node? p = some q →
      n.instanceId = q.instanceId)
    (hplaced : n.type = .intentRoot ∨ n.type = .sourceRoot → ∃ P, n.pathEntry = .path P ∧ P.names ≠ []) :
    t'.Arranged := by
  obtain ⟨rfl, hid, -, hparent⟩ := insertNode_eq_ok hins
  have hnode (i : String) : (t.setNode n).node? i = if i = n.id then some n else t.node? i :=
    Assoc.get?_set ..
  -- the parent of a node is an old node, so it is not the new one
  have hold {p q m} (hm : m = n ∨ ∃ i, t.node? i = some m) (hp : m.parent = some p)
      (hq : (t.setNode n).node? p = some q) : t.node? p = some q := by
    have hmem : p ∈ keys t.nodes := by
      rcases hm with rfl | ⟨i, hm⟩
      · exact hparent p hp
      · exact hf.parents hm hp
    rwa [hnode, if_neg fun he : p = n.id => hid (he ▸ hmem)] at hq
  refine ⟨fun {i p m q} hm ha hp hq => ?_, fun {i p m q} hm ht hp hq => ?_, fun {i m} hm ht => ?_⟩
  all_goals
    rw [hnode] at hm
    split at hm
  · cases hm
    exact habove ha hp (hold (.inl rfl) hp hq)
  · exact h.above hm ha hp (hold (.inr ⟨i, hm⟩) hp hq)
  · cases hm
    exact hinstance ht hp (hold (.inl rfl) hp hq)
  · exact h.instanceId hm ht hp (hold (.inr ⟨i, hm⟩) hp hq)
  · cases hm
    exact hplaced ht
  · exact h.placed hm ht

namespace Holds

theorem refl (t : Tables) : t.Holds t :=
  ⟨fun {_ n} hn _ => ⟨n, hn, .refl n⟩, fun {_ n} hn _ => ⟨n, hn, rfl⟩⟩

theorem trans (h : t.Holds t') (h' : t'.Holds t'') : t.Holds t'' where
  kept hn ha := by
    obtain ⟨n', hn', halike⟩ := h.kept hn ha
    obtain ⟨n'', hn'', halike'⟩ := h'.kept hn' (halike.type_eq ▸ ha)
    exact ⟨n'', hn'', halike.trans halike'⟩
  old hn'' he := by
    obtain ⟨n', hn', hkey'⟩ := h'.old hn'' he
    have htype : n'.type = _ := congrArg NodeKey.type hkey'
    obtain ⟨n, hn, hkey⟩ := h.old hn' (htype ▸ he)
    exact ⟨n, hn, hkey.trans hkey'⟩

/-- Only the nodes count. -/
theorem of_nodes (h : ∀ i, t'.node? i = t.node? i) : t.Holds t' :=
  ⟨fun {i n} hn _ => ⟨n, (h i).trans hn, .refl n⟩, fun {i n} hn _ => ⟨n, (h i).symm.trans hn, rfl⟩⟩

/-- A node that is inserted leaves the others. -/
theorem insert (hins : t.insertNode n = .ok t') (hn : ¬ n.type.IsExtension) : t.Holds t' := by
  obtain ⟨rfl, hid, -⟩ := insertNode_eq_ok hins
  have hnode (i : String) : (t.setNode n).node? i = if i = n.id then some n else t.node? i :=
    Assoc.get?_set ..
  refine ⟨fun {i m} hm _ => ⟨m, ?_, .refl m⟩, fun {i m} hm hext => ?_⟩
  · rw [hnode, if_neg fun h : i = n.id => hid (h ▸ Assoc.mem_keys_of_get? hm)]
    exact hm
  · rw [hnode] at hm
    split at hm
    · cases hm
      exact absurd hext hn
    · exact ⟨m, hm, rfl⟩

/-- The node at the address of an anchor is found again. -/
theorem findNode? (h : t.Holds t') (hf : t.WellFormed) (hf' : t'.WellFormed) (hk : k.type.IsAnchor)
    (hn : t.findNode? k = some n) : ∃ n', t'.findNode? k = some n' ∧ n'.id = n.id ∧ n.Alike n' := by
  obtain ⟨hstored, rfl⟩ := (findNode?_eq_some hf).mp hn
  obtain ⟨n', hn', halike⟩ := h.kept hstored hk
  have hid : n'.id = n.id := hf'.nodes.owned hn'
  exact ⟨n', (findNode?_eq_some hf').mpr ⟨hid ▸ hn', halike.key⟩, hid, halike⟩

/-- Where there was no extension, there is none. -/
theorem findNode?_none (h : t.Holds t') (hf : t.WellFormed) (hf' : t'.WellFormed)
    (hk : k.type.IsExtension) (hn : t.findNode? k = none) : t'.findNode? k = none := by
  rw [Option.eq_none_iff_forall_ne_some]
  intro n' hn'
  obtain ⟨hstored, rfl⟩ := (findNode?_eq_some hf').mp hn'
  obtain ⟨n, hn₀, hkey⟩ := h.old hstored hk
  have hid : n.id = n'.id := hf.nodes.owned hn₀
  rw [(findNode?_eq_some hf).mpr ⟨hid ▸ hn₀, hkey⟩] at hn
  cases hn

end Holds

end Tables

/-! ## Changes that leave the anchors -/

/-- The change makes and deletes no anchor, and changes one at most in its dependencies. -/
def Event.Tends : Event → Prop
  | .node n | .dropNode n => ¬ n.type.IsAnchor
  | .content old new => old.type.IsAnchor → old.Alike new
  | _ => True

variable {w w' : Workspace}

/-- The change keeps what anchors hold. -/
theorem Happens.holds {e : Event} {t₀ : Tables} (h : Happens e w w') (he : e.Quiet ∨ e.Tends)
    (hw : w.Sound) (ha : w.tables.Arranged) (ht : t₀.Holds w.tables) :
    w'.tables.Arranged ∧ t₀.Holds w'.tables := by
  have same (hnodes : ∀ i, w'.tables.node? i = w.tables.node? i) :
      w'.tables.Arranged ∧ t₀.Holds w'.tables :=
    ⟨ha.mono fun hn => (hnodes _).symm.trans hn, ht.trans (.of_nodes hnodes)⟩
  cases h with
  | @node _ n t _ h _ _ _ =>
      have hn : ¬ n.type.IsAnchor := he.resolve_left id
      have hne {type : NodeType} (htype : type.IsAnchor) : n.type ≠ type := fun h => hn (h ▸ htype)
      refine ⟨ha.insert hw.wellFormed h (fun h _ _ => absurd h hn) (fun h _ _ => absurd h (hne trivial))
        fun h => ?_, ht.trans (.insert h fun h => hn h.isAnchor)⟩
      exact h.elim (fun h => absurd h (hne trivial)) fun h => absurd h (hne trivial)
  | @content _ old new ho hk _ =>
      have halike : old.type.IsAnchor → old.Alike new := he.resolve_left id
      have hnode (i : String) : (w.withTables (w.tables.putNode new)).tables.node? i =
          if i = new.id then some new else w.tables.node? i := Tables.node?_putNode new i
      have hback {i m} (hm : (w.withTables (w.tables.putNode new)).tables.node? i = some m) :
          ∃ m₀, w.tables.node? i = some m₀ ∧ m₀.key = m.key ∧
            (m₀.type = .intentRoot ∨ m₀.type = .sourceRoot → m₀.Alike m) := by
        rw [hnode] at hm
        split at hm
        · rename_i hi
          cases hm
          refine ⟨old, hi ▸ ho, hk.symm, fun h => halike ?_⟩
          rcases h with h | h <;> rw [h] <;> trivial
        · exact ⟨m, hm, rfl, fun _ => .refl m⟩
      refine ⟨ha.back hback, ht.trans ⟨fun {i m} hm hanchor => ?_, fun {i m} hm _ => ?_⟩⟩
      · rw [hnode]
        split
        · rename_i hi
          rw [hi, ho, Option.some.injEq] at hm
          exact ⟨new, rfl, hm ▸ halike (hm ▸ hanchor)⟩
        · exact ⟨m, hm, .refl m⟩
      · obtain ⟨m₀, hm₀, hkey, -⟩ := hback hm
        exact ⟨m₀, hm₀, hkey⟩
  | @dropNode _ n h _ =>
      have hn : ¬ n.type.IsAnchor := he.resolve_left id
      have hnode (i : String) : (w.withTables (w.tables.dropNode n)).tables.node? i =
          if i = n.id then none else w.tables.node? i := Tables.node?_dropNode n i
      have hsub {i m} (hm : (w.withTables (w.tables.dropNode n)).tables.node? i = some m) :
          w.tables.node? i = some m := by
        rw [hnode] at hm
        split at hm
        · cases hm
        · exact hm
      refine ⟨ha.mono hsub, ht.trans ⟨fun {i m} hm hanchor => ⟨m, ?_, .refl m⟩, fun {i m} hm _ =>
        ⟨m, hsub hm, rfl⟩⟩⟩
      rw [hnode, if_neg]
      · exact hm
      · rintro rfl
        rw [h, Option.some.injEq] at hm
        exact hn (hm ▸ hanchor)
  | edge h =>
      obtain ⟨rfl, -⟩ := Tables.insertEdge_eq_ok h
      exact same fun _ => rfl
  | _ => exact same fun _ => rfl

theorem Reach.holds {t₀ : Tables} (h : Reach Event.Tends w w') (hw : w.Sound) (ha : w.tables.Arranged)
    (ht : t₀.Holds w.tables) : w'.tables.Arranged ∧ t₀.Holds w'.tables := by
  induction h with
  | refl => exact ⟨ha, ht⟩
  | step h he hs ih => exact hs.holds he (h.sound hw) ih.1 ih.2

/-- The changes of a class that leave the anchors, where they are arranged. -/
def Regime.tending (B : Event → Prop) : Regime where
  admits e := e.Tends ∧ B e
  holds w := w.tables.Arranged
  lasts hw hr ha := ((hr.mono fun _ he => he.1).holds hw ha (.refl _)).1

/-! ## Setting up projects -/

namespace Graph.Found

variable {t t' : Tables} {k : NodeKey} {json : Option Members} {n : Node}

/-- Where a node is found or made, the others stay. -/
theorem holds (h : Found t k json n t') (hk : ¬ k.type.IsExtension) : t.Holds t' := by
  cases h with
  | old _ => exact .refl t
  | new h hkey _ _ _ =>
      have htype : n.type = k.type := congrArg NodeKey.type hkey
      exact .insert h (htype ▸ hk)

/-- A node that is found or made below an anchor keeps tables arranged. -/
theorem arranged (h : Found t k json n t') (hf : t.WellFormed) (ha : t.Arranged)
    (habove : ∀ {p q}, k.type.IsAnchor → k.parent = some p → t.node? p = some q →
      k.type.seat? = some q.type)
    (hinstance : ∀ {p q}, k.type = .extension → k.parent = some p → t.node? p = some q →
      k.instanceId = q.instanceId)
    (hplaced : k.type = .intentRoot ∨ k.type = .sourceRoot →
      n.json = json → ∃ P, n.pathEntry = .path P ∧ P.names ≠ []) : t'.Arranged := by
  cases h with
  | old _ => exact ha
  | new h hkey hj _ _ =>
      have htype : n.type = k.type := congrArg NodeKey.type hkey
      have hparent : n.parent = k.parent := congrArg NodeKey.parent hkey
      have hinstanceId : n.instanceId = k.instanceId := congrArg NodeKey.instanceId hkey
      exact ha.insert hf h (fun hn hp hq => htype ▸ habove (htype ▸ hn) (hparent ▸ hp) hq)
        (fun hn hp hq => hinstanceId ▸ hinstance (htype ▸ hn) (hparent ▸ hp) hq)
        fun hn => hplaced (htype ▸ hn) hj

end Graph.Found

namespace Project

/-- The directory of a root of a project has a name. -/
theorem placed_root {n : Node} {path : Path} (hpath : ∀ m ∈ path.names, Path.IsName m) {s : String}
    (hs : Path.IsName s) (hj : n.json = some (pathMembers (path.child s))) :
    ∃ P, n.pathEntry = .path P ∧ P.names ≠ [] := by
  exact ⟨path.child s, pathEntry_of_json hj (Build.isName_child hpath s), path.child_ne_nil hs⟩

/-- A project that is set up leaves the anchors, and its own are arranged. -/
theorem Completed.holds {t t' : Tables} {i name : String} {path : Path} {p : Project}
    (h : Completed t i name path p t') (hf : t.WellFormed) (ha : t.Arranged) : t'.Arranged ∧ t.Holds t' := by
  cases h with
  | @intro t₁ t₂ t₃ t₄ _ e hnode hplace hspecs hintent hsource _ hedge =>
      have hpath := Graph.isName_of_pathEntry hplace
      obtain ⟨hp₁, hkey⟩ := hnode.node? hf
      have htype : p.node.type = .project := congrArg NodeKey.type hkey
      have hp₂ := hspecs.keeps hp₁
      have hp₃ := hintent.keeps hp₂
      have below {u : Tables} {q : Node} {j : String} (hu : u.node? p.node.id = some p.node)
          (hj : some p.node.id = some j) (hq : u.node? j = some q) : some .project = some q.type := by
        cases hj
        rw [hu, Option.some.injEq] at hq
        rw [← hq, htype]
      have hf₁ := hnode.wellFormed hf
      have hf₂ := hspecs.wellFormed hf₁
      have hf₃ := hintent.wellFormed hf₂
      have ha₁ : t₁.Arranged := hnode.arranged hf ha (fun _ hparent _ => by cases hparent)
        NodeType.noConfusion fun h _ => by rcases h with h | h <;> cases h
      have ha₂ : t₂.Arranged := hspecs.arranged hf₁ ha₁ (fun h => h.elim) NodeType.noConfusion
        fun h _ => by rcases h with h | h <;> cases h
      have ha₃ : t₃.Arranged := hintent.arranged hf₂ ha₂ (fun _ => below hp₂) NodeType.noConfusion
        fun _ hj => placed_root hpath (by decide) hj
      have ha₄ : t₄.Arranged := hsource.arranged hf₃ ha₃ (fun _ => below hp₃) NodeType.noConfusion
        fun _ hj => placed_root hpath (by decide) hj
      have hlinked (j : String) : t'.node? j = t₄.node? j := hedge.node? j
      exact ⟨ha₄.mono fun {j _} hn => (hlinked j).symm.trans hn,
        (((hnode.holds id).trans (hspecs.holds id)).trans (hintent.holds id)).trans
          ((hsource.holds id).trans (.of_nodes hlinked))⟩

end Project

/-! ## What builds and dependencies do -/

namespace Regime

variable {B : Event → Prop} (hB : ∀ e : Event, ¬ e.Writes → B e)
include hB

theorem declares_tending : (tending B).Declares where
  manifest n ht _ := ⟨fun h : n.type.IsAnchor => by rw [ht] at h; exact h, hB _ id⟩
  redeclare _ _ h := ⟨fun _ => ⟨h.key, h.other⟩, hB _ id⟩
  link _ := ⟨trivial, hB _ id⟩
  unlink _ _ := ⟨trivial, hB _ id⟩

/-- A node whose members stay is alike. -/
theorem content_tending {old new : Node} (hk : new.key = old.key) (hm : new.members = old.members) :
    (tending B).admits (.content old new) :=
  ⟨fun _ => ⟨hk, fun _ => by rw [hm]⟩, hB _ id⟩

theorem records_tending : (tending B).Records where
  keep _ _ hk hm _ := content_tending hB hk hm
  calls := ⟨trivial, hB _ id⟩
  record _ := ⟨trivial, hB _ id⟩
  dropRecord _ := ⟨trivial, hB _ id⟩

theorem derives_tending (file : Node) {type : NodeType} (ht : ¬ type.IsAnchor) :
    (tending B).Derives file type where
  made n hn _ _ := ⟨fun h : n.type.IsAnchor => ht (hn ▸ h), hB _ id⟩
  changed _ _ hn _ := ⟨fun h => absurd (hn ▸ h) ht, hB _ id⟩

theorem places_tending (root : Node) {kind : Graph.FileKind} (hd : ¬ kind.dir.IsAnchor)
    (hf : ¬ kind.file.IsAnchor) : (tending B).Places root kind := by
  refine fun _ _ _ n hn => ⟨fun h : n.type.IsAnchor => ?_, hB _ id⟩
  rcases hn.part with ⟨ht, -⟩ | ⟨ht, -⟩
  · exact hd (ht ▸ h)
  · exact hf (ht ▸ h)

/-- What is deleted with a file is no anchor, for no anchor stands below it. -/
theorem forgets_tending {type : NodeType} (ht : ¬ type.IsAnchor) : (tending B).Forgets type := by
  intro w n ha hn hnt
  have hdrops : Runs (Event.Drops fun m => ¬ m.type.IsAnchor) w (Graph.cascadeDelete n true)
      fun _ _ => True := by
    refine (Graph.runs_cascadeDelete_drops true (fun {m m'} _ hk h => ?_)
      (fun hp h hc hparent hanchor => ?_) fun {m} hm h => ?_).weaken fun _ _ _ _ => trivial
    · have htype : m.type = m'.type := congrArg NodeKey.type hk
      exact htype ▸ h
    · exact h (NodeType.isAnchor_of_seat? (ha.above hc hanchor hparent hp))
    · have htype : m.type = n.type := congrArg NodeKey.type (hn.key hm)
      exact ht (hnt ▸ htype ▸ h)
  refine hdrops.mono fun e he => ?_
  cases e with
  | dropNode m => exact ⟨he, hB _ id⟩
  | dropEdge e => exact ⟨trivial, hB _ id⟩
  | dropRecord r => exact ⟨trivial, hB _ id⟩
  | _ => exact he.elim

theorem resolves_tending {c : BuildContext} (file : Node) (h : (only B).Resolves c file) :
    (tending B).Resolves c file where
  toDeclares := declares_tending hB
  toDerives := derives_tending hB file id
  summary hP text := ⟨trivial, h.summary hP text⟩

theorem lowers_tending {c : BuildContext} (file : Node) (h : (only B).Lowers c file) :
    (tending B).Lowers c file where
  toDeclares := declares_tending hB
  toDerives := derives_tending hB file id
  places := places_tending hB _ id id
  forgets := forgets_tending hB id
  entry he _ hP := ⟨fun text => ⟨trivial, (h.entry he hP).1 text⟩, ⟨trivial, (h.entry he hP).2⟩⟩

theorem compiles_tending {c : BuildContext} (file : Node) {relative : String}
    (h : (only B).Compiles c file relative) : (tending B).Compiles c file relative where
  toDeclares := declares_tending hB
  toDerives := derives_tending hB file id
  places := places_tending hB _ id id
  source hP text := ⟨trivial, h.source hP text⟩
  output _ _ _ _ hk hm := content_tending hB hk hm
  input _ _ _ hk hm := content_tending hB hk hm

omit hB in
theorem files_tending {path : Path} (h : (only B).Files path) : (tending B).Files path :=
  fun text => ⟨⟨trivial, (h text).1⟩, ⟨trivial, (h text).2⟩⟩

end Regime

end IntentBuild
