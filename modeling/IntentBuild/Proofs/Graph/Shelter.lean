import IntentBuild.Proofs.Graph.Changes
import IntentBuild.Proofs.Graph.Place

/-!
# What deletions leave alone

A deletion goes down: with a node goes all that is below it.  So a class of nodes that has with a
node all that is above it is spared by every deletion that starts outside of it
(`Graph.runs_cascadeDelete_spares`).  Such a class is a *shelter* (`Workspace.Shelter`).  The nodes
that have no node of a type above them are one (`Workspace.shelter_clear`), and a deletion that starts
at a node of this type spares them all.

What is sheltered stays (`lasts_stay`): the nodes keep their keys, and where all nodes above a file
stay, the file stands where it stood (`Graph.Stands.stay`).
-/

namespace IntentBuild

open Op

/-- The change deletes no node of a class. -/
def Event.Spares (S : String → Prop) : Event → Prop
  | .dropNode n => ¬ S n.id
  | _ => True

namespace Workspace

variable {w₀ w w' : Workspace} {S : String → Prop} {i j p : String} {k : NodeKey} {type : NodeType}

/-- The nodes of a class stand as they stood in the first workspace. -/
def Stay (w₀ : Workspace) (S : String → Prop) (w : Workspace) : Prop :=
  ∀ j k, S j → w₀.Keyed j k → w.Keyed j k

/-- The class has with a node all that is above it. -/
structure Shelter (w : Workspace) (S : String → Prop) : Prop where
  /-- It has only nodes. -/
  known : ∀ {j}, S j → ∃ k, w.Keyed j k
  /-- It has the parents of its nodes. -/
  above : ∀ {j p k}, S j → w.Keyed j k → k.parent = some p → S p

theorem Stay.refl (w : Workspace) (S : String → Prop) : w.Stay S w := fun _ _ _ h => h

/-- Nodes that are spared stay. -/
theorem lasts_stay (w₀ : Workspace) (S : String → Prop) : Lasts (Event.Spares S) (w₀.Stay S) := by
  intro e w w' he hw hs h j k hj hk
  refine lasts_keyed j k (he.imp_right fun he => ?_) hw hs (h j k hj hk)
  cases e with
  | dropNode n =>
      rintro rfl
      exact he hj
  | _ => trivial

/-- The node is there, and neither it nor a node above it has the type. -/
def Clear (w : Workspace) (type : NodeType) (j : String) : Prop :=
  (∃ k, w.Keyed j k) ∧
    ∀ a k, Relation.ReflTransGen w.tables.IsParent a j → w.Keyed a k → k.type ≠ type

theorem shelter_clear (hw : w.Sound) (type : NodeType) : w.Shelter (w.Clear type) where
  known h := h.1
  above {j p k} h hk hp := by
    obtain ⟨m, hm, rfl⟩ := hk
    obtain ⟨q, hq⟩ := Assoc.exists_get?_of_mem_keys (hw.wellFormed.parents hm hp)
    exact ⟨⟨q.key, q, hq, rfl⟩, fun a k ha hk => h.2 a k (ha.tail ⟨m, hm, hp⟩) hk⟩

/-- A root is clear of other types than its own. -/
theorem Clear.root (h : w.Keyed j k) (hp : k.parent = none) (ht : k.type ≠ type) :
    w.Clear type j := by
  refine ⟨⟨k, h⟩, fun a k' ha hk' => ?_⟩
  rcases Relation.ReflTransGen.cases_tail ha with rfl | ⟨m, -, hm⟩
  · rwa [h.key_eq hk'] at ht
  · obtain ⟨n, hn, hparent⟩ := hm
    rw [h.key_eq ⟨n, hn, rfl⟩] at hp
    exact absurd (hparent.symm.trans hp) nofun

/-- A node below a clear node is clear of other types than its own. -/
theorem Clear.child (hc : w.Clear type p) (h : w.Keyed j k) (hp : k.parent = some p)
    (ht : k.type ≠ type) : w.Clear type j := by
  refine ⟨⟨k, h⟩, fun a k' ha hk' => ?_⟩
  rcases Relation.ReflTransGen.cases_tail ha with rfl | ⟨m, hm, hparent⟩
  · rwa [h.key_eq hk'] at ht
  · obtain ⟨n, hn, hm'⟩ := hparent
    rw [h.key_eq ⟨n, hn, rfl⟩] at hp
    obtain rfl := Option.some.inj (hm'.symm.trans hp)
    exact hc.2 a k' hm hk'

/-- Whatever happens, a clear node that is still there is clear. -/
theorem Clear.later {A : Event → Prop} (h : w.Clear type j) (hw : w.Sound) (hr : Reach A w w')
    (hj : j ∈ Assoc.keys w'.tables.nodes) : w'.Clear type j := by
  obtain ⟨k, hk⟩ := h.1
  refine ⟨⟨k, hk.later hw hr hj⟩, fun a k' ha hk' => ?_⟩
  -- upwards from the node, all that is above it now was above it before
  have above : (∃ k, w.Keyed a k ∧ w'.Keyed a k) ∧ Relation.ReflTransGen w.tables.IsParent a j := by
    clear hk'
    induction ha using Relation.ReflTransGen.head_induction_on with
    | refl => exact ⟨⟨k, hk, hk.later hw hr hj⟩, .refl⟩
    | @head a b hab _ ih =>
        obtain ⟨⟨kb, hkb, hkb'⟩, hbj⟩ := ih
        obtain ⟨m, hm, hparent⟩ := hab
        have hp : kb.parent = some a := Keyed.key_eq ⟨m, hm, rfl⟩ hkb' ▸ hparent
        obtain ⟨n, hn, rfl⟩ := hkb
        obtain ⟨q, hq⟩ := Assoc.exists_get?_of_mem_keys (hw.wellFormed.parents hn hp)
        have hkey : w.Keyed a q.key := ⟨q, hq, rfl⟩
        exact ⟨⟨q.key, hkey, hkey.later hw hr ((hr.sound hw).wellFormed.parents hm hparent)⟩,
          .head ⟨n, hn, hp⟩ hbj⟩
  obtain ⟨⟨ka, hka, hka'⟩, haj⟩ := above
  rw [hk'.key_eq hka']
  exact h.2 a ka haj hka

/-- A node and all that is above it. -/
def Above (w : Workspace) (i j : String) : Prop := Relation.ReflTransGen w.tables.IsParent j i

theorem shelter_above (hw : w.Sound) (h : w.Keyed i k) : w.Shelter (w.Above i) where
  known {j} hj := by
    rcases Relation.ReflTransGen.cases_head hj with rfl | ⟨m, ⟨n, hn, hp⟩, -⟩
    · exact ⟨k, h⟩
    · obtain ⟨q, hq⟩ := Assoc.exists_get?_of_mem_keys (hw.wellFormed.parents hn hp)
      exact ⟨q.key, q, hq, rfl⟩
  above hj hk hp := .head (hk.isParent hp) hj

end Workspace

namespace Graph

variable {w₀ w w' : Workspace} {S : String → Prop} {kind : FileKind} {i p : String}
  {names : List String} {type : NodeType}

/-- A deletion that starts outside a shelter spares it. -/
theorem runs_cascadeDelete_spares (hS : w₀.Shelter S) (hstay : w₀.Stay S w) {n : Node}
    (hn : ¬ S n.id) : Runs (Event.Drops fun m => ¬ S m.id) w (cascadeDelete n true) fun _ w' =>
      Tables.Fells w.tables n.id w'.tables := by
  intro hw
  refine ((runs_cascadeDelete_drops true (fun hid _ h => hid ▸ h) (fun {q c} _ hq hc hparent hS' => ?_)
    fun {m} hm => ?_).weaken fun _ _ _ h => h.1 rfl) hw
  · obtain ⟨k, hk⟩ := hS.known hS'
    have hkey := (hstay _ _ hS' hk).key_eq (.of_node? hc)
    exact hq (hS.above hS' hk (hkey ▸ hparent))
  · rwa [hw.wellFormed.nodes.owned hm]

/-- The changes of such a deletion spare the shelter. -/
theorem spares_of_drops {e : Event} (he : Event.Drops (fun m => ¬ S m.id) e) : e.Spares S := by
  cases e with
  | dropNode n => exact he
  | _ => trivial

/-- A node that was read with a type is not clear of it. -/
theorem not_clear_of_handle {n : Node} (hstay : w₀.Stay (w₀.Clear type) w) (hn : Handle n w)
    (ht : n.type = type) : ¬ w₀.Clear type n.id := by
  intro hc
  obtain ⟨k, hk⟩ := hc.1
  obtain ⟨m, hm, hmk⟩ := hstay _ _ hc hk
  refine hc.2 _ k .refl hk ?_
  rw [← hmk, hn.key hm]
  exact ht

/-- Where all nodes above a file stay, the file stands where it stood. -/
theorem Stands.stay (h : Stands w₀ kind p names i) (hi : S i) (hS : w₀.Shelter S)
    (hstay : w₀.Stay S w) (hid : w.graph.instanceId = w₀.graph.instanceId) :
    Stands w kind p names i := by
  obtain ⟨init, name, d, rfl, hlead, hkeyed⟩ := h.descends
  have lead {names : List String} {d : String} (h : Descends w₀ kind p names d) (hd : S d) :
      Descends w kind p names d := by
    induction h with
    | here => exact .here
    | down _ hk ih =>
        refine .down (ih (hS.above hd hk rfl)) ?_
        rw [hid]
        exact hstay _ _ hd hk
  refine .of_descends (lead hlead (hS.above hi hkeyed rfl)) ?_
  rw [hid]
  exact hstay _ _ hi hkeyed

/-- Where no node is deleted, a file stands where it stood. -/
theorem Stands.reach (hw : w.Sound) (hr : Reach (Event.Spares fun _ => True) w w')
    (h : Stands w kind p names i) : Stands w' kind p names i := by
  have hstay := Lasts.reach (w.lasts_stay fun _ => True) hw hr (.refl w _)
  have hkeyed {j : String} {k : NodeKey} (hk : w.Keyed j k) : w'.Keyed j k := hstay j k trivial hk
  induction h with
  | file h => exact .file (hr.instanceId_eq ▸ hkeyed h)
  | dir h _ ih => exact .dir (hr.instanceId_eq ▸ hkeyed h) ih

/-- A directory below a clear node is clear of other types than that of directories. -/
theorem Descends.clear (h : Descends w kind p names i) (hp : w.Clear type p)
    (hd : kind.dir ≠ type) : w.Clear type i := by
  induction h with
  | here => exact hp
  | down _ hk ih => exact ih.child hk rfl hd

/-- A file below a clear node is clear of other types than those of files and directories. -/
theorem Stands.clear (h : Stands w kind p names i) (hp : w.Clear type p) (hd : kind.dir ≠ type)
    (hf : kind.file ≠ type) : w.Clear type i := by
  obtain ⟨init, name, d, rfl, hlead, hkeyed⟩ := h.descends
  exact (hlead.clear hp hd).child hkeyed rfl hf

end Graph

end IntentBuild
