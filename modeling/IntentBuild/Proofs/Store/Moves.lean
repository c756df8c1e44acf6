import IntentBuild.Proofs.Store.WellFormed
import Mathlib.Logic.Relation

/-!
# Nodes that move

A node may be put in place of one with another key: with another name or type, or below another parent.
In well-formed tables `updateNode` refuses an unknown node and a key that another node has, and moves the
index with the node otherwise, so it never misses a key (`updateNode_cases`).

It does not ask for the new parent.  The tables are well-formed after a move exactly when the new parent is
a node, and neither the node itself nor below it (`wellFormed_moved_iff`).
-/

namespace IntentBuild

/-- A row in place of one with its identifier, with a key that no row has. -/
theorem Indexed.rekey {κ α : Type} [DecidableEq κ] {own : α → String} {key : α → κ}
    {table : List (String × α)} {index : List (κ × String)} (h : Indexed own key table index) {a b : α}
    (hb : Assoc.get? (own a) table = some b) (hk : key a ∉ Assoc.keys index) :
    Indexed own key (Assoc.set (own a) a table)
      (Assoc.set (key a) (own a) (Assoc.erase (key b) index)) := by
  have hgone : own a ∉ Assoc.keys (Assoc.erase (own a) table) := fun hm => (Assoc.mem_keys_erase.mp hm).2 rfl
  have hmoved := (h.erase hb).insert hgone fun hm => hk (Assoc.mem_keys_erase.mp hm).1
  -- The row stands where the old one stood, and not at the end.
  have hsame (i : String) : Assoc.get? i (Assoc.set (own a) a (Assoc.erase (own a) table))
      = Assoc.get? i (Assoc.set (own a) a table) := by
    rw [Assoc.get?_set, Assoc.get?_set, Assoc.get?_erase]
    split <;> rfl
  exact
    { proper := Assoc.proper_set h.proper _ _
      properIndex := hmoved.properIndex
      owned := fun hg => hmoved.owned ((hsame _).trans hg)
      inverse := by
        intro k i
        rw [hmoved.inverse, hsame] }

namespace Tables

open Assoc (keys)
open Relation

variable {t t' : Tables} {n old : Node}

/-- The tables with a node in place of another with its identifier, and its key in the place of the other's. -/
def moved (t : Tables) (old n : Node) : Tables :=
  if n.key = old.key then t.putNode n
  else { t with
    nodes := Assoc.set n.id n t.nodes
    nodeIndex := Assoc.set n.key n.id (Assoc.erase old.key t.nodeIndex) }

theorem moved_nodes : (t.moved old n).nodes = Assoc.set n.id n t.nodes := by
  rw [moved]
  split <;> rfl

theorem moved_edges : (t.moved old n).edges = t.edges := by
  rw [moved]
  split <;> rfl

theorem moved_records : (t.moved old n).records = t.records := by
  rw [moved]
  split <;> rfl

theorem node?_moved (i : String) : (t.moved old n).node? i = if i = n.id then some n else t.node? i := by
  rw [node?, moved_nodes, Assoc.get?_set]
  rfl

/-- What comes of putting a node in place of the one with its identifier. -/
theorem updateNode_cases (h : t.WellFormed) (n : Node) :
    (t.node? n.id = none ∧ t.updateNode n = .refused (.updateMissing n.id)) ∨
    (∃ other, t.findNode? n.key = some other ∧ other.id ≠ n.id ∧
      t.updateNode n = .refused (.duplicateNode n.key)) ∨
    ∃ old, t.node? n.id = some old ∧ (n.key = old.key ∨ n.key ∉ keys t.nodeIndex) ∧
      t.updateNode n = .done (t.moved old n) := by
  cases ho : t.node? n.id with
  | none => exact .inl ⟨rfl, by rw [updateNode, ho]⟩
  | some old =>
      by_cases hk : n.key = old.key
      · exact .inr (.inr ⟨old, rfl, .inl hk, by rw [updateNode_of_key_eq ho hk, moved, if_pos hk]⟩)
      · have hold : Assoc.has old.key t.nodeIndex = true :=
          Assoc.has_iff.mpr (Assoc.mem_keys_of_get? (h.nodes.index_eq ho))
        cases hf : Assoc.get? n.key t.nodeIndex with
        | none =>
            refine .inr (.inr ⟨old, rfl, .inr (Assoc.get?_eq_none_iff.mp hf), ?_⟩)
            simp only [updateNode, ho, hk, hf, hold, moved, if_true, if_false]
        | some i =>
            obtain ⟨other, hother, hkey⟩ := h.nodes.inverse.mp hf
            have hid : other.id = i := h.nodes.owned hother
            have hne : i ≠ n.id := by
              rintro rfl
              rw [node?, hother, Option.some.injEq] at ho
              exact hk (ho ▸ hkey.symm)
            refine .inr (.inl ⟨other, ?_, hid ▸ hne, ?_⟩)
            · rw [findNode?, hf]
              exact hother
            · simp only [updateNode, ho, hk, hf, hne, ne_eq, not_false_eq_true, if_true, if_false]

/-! ## The parent of a node that moves -/

/-- A node that moves below a parent comes below what the parent is below. -/
theorem transGen_moved (hfree : ∀ p, n.parent = some p → ¬ ReflTransGen t.IsParent n.id p) {a b : String}
    (hab : TransGen (t.moved old n).IsParent a b) :
    TransGen t.IsParent a b ∨
      (ReflTransGen t.IsParent n.id b ∧ ∃ p, n.parent = some p ∧ ReflTransGen t.IsParent a p) := by
  have step {a b : String} (hs : (t.moved old n).IsParent a b) :
      t.IsParent a b ∨ (b = n.id ∧ n.parent = some a) := by
    obtain ⟨m, hm, hp⟩ := hs
    rw [node?_moved] at hm
    split at hm
    case isTrue hb => exact .inr ⟨hb, (Option.some.inj hm) ▸ hp⟩
    case isFalse => exact .inl ⟨m, hm, hp⟩
  induction hab with
  | single hs =>
      obtain hs | ⟨rfl, hp⟩ := step hs
      · exact .inl (.single hs)
      · exact .inr ⟨.refl, _, hp, .refl⟩
  | tail _ hs ih =>
      obtain hs | ⟨rfl, hp⟩ := step hs
      · exact ih.imp (·.tail hs) fun ⟨hb, hrest⟩ => ⟨hb.tail hs, hrest⟩
      · obtain hab | ⟨hb, _⟩ := ih
        · exact .inr ⟨.refl, _, hp, hab.to_reflTransGen⟩
        · exact absurd hb (hfree _ hp)

/-- What is below a node stays below it when the node moves. -/
theorem transGen_moved_below (h : t.WellFormed) {b : String} (hb : TransGen t.IsParent n.id b) :
    TransGen (t.moved old n).IsParent n.id b := by
  have step {a b : String} (hs : t.IsParent a b) (hb : TransGen t.IsParent n.id b) :
      (t.moved old n).IsParent a b := by
    obtain ⟨m, hm, hp⟩ := hs
    have hne : b ≠ n.id := fun he => h.acyclic n.id (he ▸ hb)
    exact ⟨m, by rw [node?_moved, if_neg hne]; exact hm, hp⟩
  induction hb with
  | single hs => exact .single (step hs (.single hs))
  | tail hab hs ih => exact .tail ih (step hs (hab.tail hs))

/-- A move keeps the rules exactly when the new parent is a node that is neither the node nor below it. -/
theorem wellFormed_moved_iff (h : t.WellFormed) (ho : t.node? n.id = some old)
    (hk : n.key = old.key ∨ n.key ∉ keys t.nodeIndex) :
    (t.moved old n).WellFormed ↔
      ∀ p, n.parent = some p → p ∈ keys t.nodes ∧ ¬ ReflTransGen t.IsParent n.id p := by
  have hkeys : keys (t.moved old n).nodes = keys t.nodes :=
    moved_nodes ▸ Assoc.keys_set_of_mem (Assoc.mem_keys_of_get? ho) n
  have hself : (t.moved old n).node? n.id = some n := by rw [node?_moved, if_pos rfl]
  constructor
  · intro hmoved p hp
    refine ⟨hkeys ▸ hmoved.parents hself hp, fun hbelow => ?_⟩
    have hparent : (t.moved old n).IsParent p n.id := ⟨n, hself, hp⟩
    obtain rfl | hbelow := reflTransGen_iff_eq_or_transGen.mp hbelow
    · exact hmoved.acyclic _ (.single hparent)
    · exact hmoved.acyclic _ ((transGen_moved_below h hbelow).tail hparent)
  · intro hfree
    exact
      { nodes := by
          rw [moved]
          split
          case isTrue hsame => exact h.nodes.replace ho rfl hsame
          case isFalse hother => exact h.nodes.rekey ho (hk.resolve_left hother)
        edges := by
          rw [moved]
          split <;> exact h.edges
        records := by
          rw [moved]
          split <;> exact h.records
        parents := fun {i m p} hm hp => by
          rw [hkeys]
          rw [node?_moved] at hm
          split at hm
          · rw [Option.some.injEq] at hm
            exact (hfree p (hm ▸ hp)).1
          · exact h.parents hm hp
        acyclic := fun i hi => by
          obtain hi | ⟨hbelow, p, hp, habove⟩ := transGen_moved (fun p hp => (hfree p hp).2) hi
          · exact h.acyclic i hi
          · exact (hfree p hp).2 (hbelow.trans habove)
        ends := fun he => by
          rw [hkeys]
          exact h.ends (moved_edges ▸ he)
        owners := fun hr => by
          rw [hkeys]
          exact h.owners (moved_records ▸ hr) }

/-- Putting a node in its place is refused with the tables as they are, or keeps the rules exactly when the
parent that the node then has is a node that is neither the node nor below it. -/
theorem updateNode_keeps_iff (h : t.WellFormed) (n : Node) :
    (∃ fault, t.updateNode n = .refused fault) ∨
    ∃ t', t.updateNode n = .done t' ∧
      (t'.WellFormed ↔ ∀ p, n.parent = some p → p ∈ keys t.nodes ∧ ¬ ReflTransGen t.IsParent n.id p) := by
  obtain ⟨_, hr⟩ | ⟨_, _, _, hr⟩ | ⟨old, ho, hk, hr⟩ := updateNode_cases h n
  · exact .inl ⟨_, hr⟩
  · exact .inl ⟨_, hr⟩
  · exact .inr ⟨_, hr, wellFormed_moved_iff h ho hk⟩

/-- A directory of specifications. -/
def directory (id : String) (parent : Option String) : Node where
  id
  parent
  instanceId := "default"
  status := .active
  type := .specDir
  name := id
  content := none
  contentHash := none
  json := none
  jsonHash := none
  contentUpdated := none
  created := .universal 0
  updated := .universal 0

/-- Tables with a directory and another one below it. -/
def nested : Tables := (({} : Tables).setNode (directory "a" none)).setNode (directory "b" (some "a"))

theorem wellFormed_nested : nested.WellFormed := by
  have htop : (({} : Tables).setNode (directory "a" none)).WellFormed :=
    wellFormed_setNode wellFormed_empty (by decide) (by decide) fun _ hp => by cases hp
  refine wellFormed_setNode htop (by decide) (by decide) fun _ hp => ?_
  cases hp
  decide

/-- The directory can be put below the one that is below it, and then the rules do not hold any more. -/
theorem updateNode_keeps_iff_nested :
    ∃ t', nested.updateNode (directory "a" (some "b")) = .done t' ∧ ¬ t'.WellFormed := by
  have hbelow : nested.IsParent "a" "b" := ⟨directory "b" (some "a"), rfl, rfl⟩
  obtain ⟨_, hrefused⟩ | ⟨t', hdone, hiff⟩ :=
    updateNode_keeps_iff wellFormed_nested (directory "a" (some "b"))
  · cases hrefused
  · exact ⟨t', hdone, fun h => (hiff.mp h "b" rfl).2 (.single hbelow)⟩

end Tables

end IntentBuild
