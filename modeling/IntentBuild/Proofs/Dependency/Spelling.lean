import IntentBuild.Proofs.Dependency.UnionLaw
import IntentBuild.Proofs.Version.Ranking

/-!
# The manifest up to spelling

What the files of a project declare settles the names of the manifest, and its versions up to ties.  Of
versions that are tied the manifest has the one whose edge came first, so the order of the deltas shows in
the spelling of a version and nowhere else (`settled_up_to_spelling`).  Where tied versions are spelled
alike it does not show at all.
-/

namespace IntentBuild.Manifest

open Op
open Assoc (keys Proper)
open Version (Tied)

variable {p : Node} {w w₁ w₂ : Workspace}

/-- A file of the project declares the version for the name. -/
def Declared (p : Node) (w : Workspace) (name version : String) : Prop :=
  ∃ n, FileOf w.tables p n ∧ Declares n name version

/-- The files of the project declare the same in both workspaces. -/
def SameDeclared (p : Node) (w w' : Workspace) : Prop :=
  ∀ name version, Declared p w name version ↔ Declared p w' name version

/-- Declared versions of one name that are tied are spelled alike. -/
def SpelledAlike (p : Node) (w : Workspace) : Prop :=
  ∀ {name u v}, Declared p w name u → Declared p w name v → Tied u v → u = v

/-- The map of the manifest is in order. -/
theorem Balanced.sorted (h : Balanced p w) :
    Proper (kept p w) ∧ Text.sortByKey (kept p w) = kept p w := by
  cases hb : node? p w with
  | none =>
      rw [kept, hb]
      exact ⟨Assoc.proper_nil, rfl⟩
  | some b =>
      rw [h.kept_eq hb]
      exact ⟨proper_union, Text.sortByKey_sortByKey _⟩

/-- The versions that two manifests of the same declarations have for a name are tied. -/
theorem UnionLaw.tied (h₁ : UnionLaw p w₁) (h₂ : UnionLaw p w₂) (hs : SameDeclared p w₁ w₂)
    {name u v : String} (hu : Assoc.get? name (kept p w₁) = some u)
    (hv : Assoc.get? name (kept p w₂) = some v) : Tied u v := by
  obtain ⟨hu, -, hu_top⟩ := h₁.highest hu
  obtain ⟨hv, -, hv_top⟩ := h₂.highest hv
  obtain ⟨n, hn, hnu⟩ := (hs name u).mp hu
  obtain ⟨m, hm, hmv⟩ := (hs name v).mpr hv
  exact ⟨hv_top n u hn hnu, hu_top m v hm hmv⟩

theorem UnionLaw.mem_keys_iff (h₁ : UnionLaw p w₁) (h₂ : UnionLaw p w₂) (hs : SameDeclared p w₁ w₂)
    (name : String) : name ∈ keys (kept p w₁) ↔ name ∈ keys (kept p w₂) := by
  have hd (w : Workspace) : (∃ n v, FileOf w.tables p n ∧ Declares n name v) ↔
      ∃ v, Declared p w name v := exists_comm
  rw [h₁.union, h₂.union, hd, hd]
  exact exists_congr (hs name)

/-- Two manifests of the same declarations, of which tied ones are spelled alike, have the same map. -/
theorem UnionLaw.kept_eq (h₁ : UnionLaw p w₁) (h₂ : UnionLaw p w₂) (hb₁ : Balanced p w₁)
    (hb₂ : Balanced p w₂) (hs : SameDeclared p w₁ w₂) (ha : SpelledAlike p w₁) :
    kept p w₁ = kept p w₂ := by
  rw [← hb₁.sorted.2, ← hb₂.sorted.2]
  refine Text.sortByKey_eq hb₁.sorted.1 hb₂.sorted.1 fun name => ?_
  have hkeys := h₁.mem_keys_iff h₂ hs name
  cases hu : Assoc.get? name (kept p w₁) with
  | none =>
      have hnot := (not_congr hkeys).mp (Assoc.get?_eq_none_iff.mp hu)
      exact (Assoc.get?_eq_none_iff.mpr hnot).symm
  | some u =>
      obtain ⟨v, hv⟩ := Assoc.exists_get?_of_mem_keys (hkeys.mp (Assoc.mem_keys_of_get? hu))
      have htied := h₁.tied h₂ hs hu hv
      rw [hv, ha (h₁.highest hu).1 ((hs name v).mpr (h₂.highest hv).1) htied]

/-- Two rows of dealings that leave the same declarations leave manifests with the same names, whose
versions are tied.  Where tied versions are spelled alike the manifests are the same. -/
theorem settled_up_to_spelling (hw : w.Sound) (h0 : Undeclared p w) (h₁ : Deals p w w₁)
    (h₂ : Deals p w w₂) (hs : SameDeclared p w₁ w₂) {m₁ m₂ : Dependencies} {x₁ x₂ : Workspace}
    (hm₁ : (deps p).run w₁ = .ok m₁ x₁) (hm₂ : (deps p).run w₂ = .ok m₂ x₂) :
    (∀ name, name ∈ keys m₁ ↔ name ∈ keys m₂) ∧
      (∀ {name u v}, Assoc.get? name m₁ = some u → Assoc.get? name m₂ = some v → Tied u v) ∧
      (SpelledAlike p w₁ → m₁ = m₂) := by
  obtain ⟨hw₁, hb₁⟩ := h₁.balanced hw h0
  obtain ⟨hw₂, hb₂⟩ := h₂.balanced hw h0
  have hl₁ := hb₁.unionLaw hw₁
  have hl₂ := hb₂.unionLaw hw₂
  rw [hl₁.reads hm₁, hl₂.reads hm₂]
  exact ⟨hl₁.mem_keys_iff hl₂ hs, hl₁.tied hl₂ hs, hl₁.kept_eq hl₂ hb₁ hb₂ hs⟩

/-! ## A file that declares in two ways -/

/-- What the file of the sample project declares below. -/
def pair : Dependencies := [("x", "1.0.0"), ("y", "^2.0.0")]

/-- The file of the sample project declares the pair after some deltas, and there is no other file. -/
def DeclaresPair (ds : List DependencyDelta) : Bool :=
  (applyDeltas sampleProject sampleFile ds).gives sample fun _ w =>
    (w.tables.node? sampleFile.id).any (fun f => f.id = sampleFile.id ∧ f.type = .specFile ∧
      f.parent = some sampleProject.id ∧ texts? "deps" f = some pair) &&
    w.tables.allNodes.all fun n => n.type = .project ∨ n.type = .deps ∨ n.id = sampleFile.id

theorem declared_iff_of_pair (ds : List DependencyDelta) (h : DeclaresPair ds = true)
    (name version : String) :
    Declared sampleProject ((applyDeltas sampleProject sampleFile ds).after sample) name version ↔
      Assoc.get? name pair = some version := by
  obtain ⟨b, w, hrun, htest⟩ := gives_eq_true.mp h
  rw [show (applyDeltas sampleProject sampleFile ds).after sample = w by rw [Op.after, hrun]]
  obtain ⟨hf, hall⟩ := Bool.and_eq_true_iff.mp htest
  rw [Option.any_eq_true] at hf
  obtain ⟨f, hf, hparts⟩ := hf
  obtain ⟨hid, htype, hparent, htexts⟩ := of_decide_eq_true hparts
  have hm := textsAt_of_texts? htexts
  constructor
  · rintro ⟨n, hn, m, hm', hv⟩
    obtain h | h | h := of_decide_eq_true (List.all_eq_true.mp hall n
      (List.mem_map_of_mem (Assoc.mem_of_get? hn.stored)))
    · rcases hn.type with ht | ht | ht <;> cases h.symm.trans ht
    · rcases hn.type with ht | ht | ht <;> cases h.symm.trans ht
    · have hnf := hn.stored
      rw [h, hf] at hnf
      cases hnf
      cases hm.symm.trans hm'
      exact hv
  · intro hv
    exact ⟨f, ⟨hid ▸ hf, .inl htype, .single ⟨f, hid ▸ hf, hparent⟩⟩, pair, hm, hv⟩

/-- Deltas that declare the pair. -/
def inOrder : List DependencyDelta := [⟨.add, "x", some "1.0.0"⟩, ⟨.add, "y", some "^2.0.0"⟩]

/-- Deltas that declare the pair in another order, one name of it after it was removed. -/
def outOfOrder : List DependencyDelta :=
  [⟨.add, "y", some "^2.0.0"⟩, ⟨.remove, "x", none⟩, ⟨.add, "x", some "1.0.0"⟩]

/-- The manifest is the same, whichever name of the pair is added first. -/
theorem settled_up_to_spelling_sample : ∃ m x₁ x₂,
    (deps sampleProject).run ((applyDeltas sampleProject sampleFile inOrder).after sample) = .ok m x₁ ∧
    (deps sampleProject).run ((applyDeltas sampleProject sampleFile outOfOrder).after sample) =
      .ok m x₂ := by
  have hdeals (ds : List DependencyDelta) (hds : ∀ d ∈ ds, d.Valid) :
      Deals sampleProject sample ((applyDeltas sampleProject sampleFile ds).after sample) :=
    .apply .none fileHandle_sample hds
  obtain ⟨hgives₁, hgives₂, hpair₁, hpair₂⟩ :
      (deps sampleProject).gives ((applyDeltas sampleProject sampleFile inOrder).after sample)
        (fun _ _ => true) = true ∧
      (deps sampleProject).gives ((applyDeltas sampleProject sampleFile outOfOrder).after sample)
        (fun _ _ => true) = true ∧ DeclaresPair inOrder = true ∧
      DeclaresPair outOfOrder = true := by decide +kernel
  have hread (ds : List DependencyDelta) (h : (deps sampleProject).gives
      ((applyDeltas sampleProject sampleFile ds).after sample) (fun _ _ => true) = true) :
      ∃ m x, (deps sampleProject).run ((applyDeltas sampleProject sampleFile ds).after sample) =
        .ok m x := by
    obtain ⟨m, x, hm, -⟩ := gives_eq_true.mp h
    exact ⟨m, x, hm⟩
  obtain ⟨m₁, x₁, hm₁⟩ := hread inOrder hgives₁
  obtain ⟨m₂, x₂, hm₂⟩ := hread outOfOrder hgives₂
  have h₁ := declared_iff_of_pair inOrder hpair₁
  have h₂ := declared_iff_of_pair outOfOrder hpair₂
  obtain ⟨-, -, heq⟩ := settled_up_to_spelling sound_sample undeclared_sample
    (hdeals inOrder (by decide)) (hdeals outOfOrder (by decide))
    (fun name version => (h₁ name version).trans (h₂ name version).symm) hm₁ hm₂
  have halike : SpelledAlike sampleProject
      ((applyDeltas sampleProject sampleFile inOrder).after sample) := fun hu hv _ =>
    Option.some.inj (((h₁ _ _).mp hu).symm.trans ((h₁ _ _).mp hv))
  exact ⟨m₁, x₁, x₂, hm₁, heq halike ▸ hm₂⟩

end IntentBuild.Manifest
