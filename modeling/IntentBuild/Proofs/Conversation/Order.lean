import IntentBuild.Conversation.Prompt
import IntentBuild.Dependency.DepsFile
import IntentBuild.Proofs.Json.Alike
import Mathlib.Data.List.Forall2

/-!
# Prompts depend on no order

The text of a prompt is what records of replies are found by, so it must not depend on the order in which
its inputs come.  Every part of it that is made of several inputs is put in order first: extensions by their
identifiers (`lines_eq`, `skillText_eq`), projects by their numbers, dependencies by their names
(`dependencyLines_eq`), and the members of JSON values by their keys (`jsonBlock_eq`).

So inputs that agree up to order have equal prompts (`order_ignored`).
-/

namespace IntentBuild

open Assoc (Proper)

/-! ## Rows in order -/

namespace Sorting

variable {α β : Type} {R : α → β → Prop} {le : α → α → Bool} {le' : β → β → Bool}

/-- Rows that correspond item by item do so when they are put in order, where the orders correspond. -/
theorem forall₂_sort (hle : ∀ {a a' b b'}, R a b → R a' b' → le a a' = le' b b') {l : List α}
    {l' : List β} (h : List.Forall₂ R l l') : List.Forall₂ R (sort le l) (sort le' l') := by
  have forall₂_insert {a : α} {b : β} (hab : R a b) {l : List α} {l' : List β}
      (h : List.Forall₂ R l l') : List.Forall₂ R (insert le a l) (insert le' b l') := by
    induction h with
    | nil => exact .cons hab .nil
    | cons hcd hrest ih =>
        rw [insert, insert, hle hab hcd]
        split
        · exact .cons hab (.cons hcd hrest)
        · exact .cons hcd ih
  induction h with
  | nil => exact .nil
  | cons hab _ ih => exact forall₂_insert hab ih

end Sorting

/-! ## Extensions -/

namespace ExtensionSpec

variable {es es' : List ExtensionSpec}

/-- The extensions are equal up to the order of the guidance. -/
structure Same (a b : ExtensionSpec) : Prop where
  /-- The identifiers are equal. -/
  id : a.id = b.id
  /-- The names are equal. -/
  name : a.name = b.name
  /-- The versions are equal. -/
  version : a.version = b.version
  /-- The guidance for every target is equal. -/
  skills : ∀ target, Assoc.get? target a.skills = Assoc.get? target b.skills
  /-- The hooks are equal. -/
  hooks : a.hooks = b.hooks

/-- The extensions are the same in some order. -/
def SameSet (es es' : List ExtensionSpec) : Prop := ∃ row, es.Perm row ∧ List.Forall₂ Same row es'

/-- Extensions with distinct identifiers have one order. -/
theorem sortById_eq_of_perm (hids : (es.map ExtensionSpec.id).Nodup) (h : es.Perm es') :
    sortById es = sortById es' := by
  refine Sorting.sort_eq_of_perm (fun a b c hab hbc => ?_) (fun a b => ?_) (fun a ha b hb hab hba => ?_) h
  · exact Text.charsLe_trans hab hbc
  · exact Text.charsLe_total a.id b.id
  · exact List.inj_on_of_nodup_map hids ha hb (Text.charsLe_antisymm hab hba)

/-- Extensions that are the same in some order are the same one by one when they are in order. -/
theorem SameSet.sorted (h : SameSet es es') (hids : (es.map ExtensionSpec.id).Nodup) :
    List.Forall₂ Same (sortById es) (sortById es') := by
  obtain ⟨row, hperm, hsame⟩ := h
  rw [sortById_eq_of_perm hids hperm]
  exact Sorting.forall₂_sort (fun ha hb => by rw [idLe, idLe, ha.id, hb.id]) hsame

theorem Same.line {a b : ExtensionSpec} (h : Same a b) : a.line = b.line := by
  rw [ExtensionSpec.line, ExtensionSpec.line, h.id, h.name, h.version]

theorem Same.section? {a b : ExtensionSpec} (h : Same a b) (target : String) :
    a.section? target = b.section? target := by
  rw [ExtensionSpec.section?, ExtensionSpec.section?, title, title, h.id, h.name, h.skills]

/-- What is made of each extension in order is the same. -/
theorem SameSet.map_sorted {β : Type} {f : ExtensionSpec → β} (h : SameSet es es')
    (hids : (es.map ExtensionSpec.id).Nodup) (hf : ∀ {a b}, Same a b → f a = f b) :
    (sortById es).map f = (sortById es').map f := by
  have hrow := (h.sorted hids).imp fun _ _ => hf
  rw [← List.forall₂_eq_eq_eq, List.forall₂_map_left_iff, List.forall₂_map_right_iff]
  exact hrow

theorem lines_eq (h : SameSet es es') (hids : (es.map ExtensionSpec.id).Nodup) : lines es = lines es' := by
  have hempty : es.isEmpty = es'.isEmpty := by
    obtain ⟨row, hperm, hsame⟩ := h
    rw [Bool.eq_iff_iff, List.isEmpty_iff_length_eq_zero, List.isEmpty_iff_length_eq_zero,
      hperm.length_eq, hsame.length_eq]
  rw [lines, lines, hempty, h.map_sorted hids Same.line]

theorem skillText_eq (h : SameSet es es') (hids : (es.map ExtensionSpec.id).Nodup) (target : String) :
    skillText es target = skillText es' target := by
  have sections (row : List ExtensionSpec) :
      row.filterMap (ExtensionSpec.section? target) =
        (row.map (ExtensionSpec.section? target)).filterMap fun s => s := by
    rw [List.filterMap_map]
    rfl
  rw [skillText, skillText, sections, sections, h.map_sorted hids fun hs => hs.section? target]

end ExtensionSpec

namespace Prompt

variable {es es' : List ExtensionSpec} {projects projects' : List (Int × String)}
  {deps deps' : List (String × String)} {stack stack' : Option Members} {indexed indexed' : Members}

/-! ## JSON values, projects and dependencies -/

theorem jsonBlock_eq {v w : Json} (hv : v.Tidy) (hw : w.Tidy) (h : v.Alike w) :
    jsonBlock v = jsonBlock w := by
  rw [jsonBlock, jsonBlock, (Json.sortKeys_eq_iff Text.isOrder_charsLe hv hw).mpr h]

/-- Projects with the same names by their numbers have one order. -/
theorem sortProjects_eq (hp : Proper projects) (hp' : Proper projects')
    (h : ∀ n, Assoc.get? n projects = Assoc.get? n projects') :
    Sorting.sort (fun a b => a.1 ≤ b.1) projects = Sorting.sort (fun a b => a.1 ≤ b.1) projects' := by
  refine Sorting.sort_eq_of_perm (fun a b c hab hbc => ?_) (fun a b => ?_) (fun a ha b hb hab hba => ?_)
    ((Assoc.perm_iff hp hp').mpr h)
  · simp only [decide_eq_true_eq] at *
    omega
  · simp only [decide_eq_true_eq]
    omega
  · simp only [decide_eq_true_eq] at hab hba
    exact Assoc.eq_of_key_eq hp ha hb (by omega)

/-- Dependencies with the same versions by their names have one order. -/
theorem dependencyLines_eq (hd : Proper deps) (hd' : Proper deps')
    (h : ∀ name, Assoc.get? name deps = Assoc.get? name deps') :
    dependencyLines deps = dependencyLines deps' := by
  have hempty : deps.isEmpty = deps'.isEmpty := by
    rw [Bool.eq_iff_iff, List.isEmpty_iff_length_eq_zero, List.isEmpty_iff_length_eq_zero,
      ((Assoc.perm_iff hd hd').mpr h).length_eq]
  rw [dependencyLines, dependencyLines, hempty, Text.sortByKey_eq hd hd' h]

/-! ## Prompts -/

/-- The tech stacks are both unresolved, or equal up to the order of the members at every depth. -/
def AlikeStacks : Option Members → Option Members → Prop
  | some ms, some ns => (Json.obj ms).Tidy ∧ (Json.obj ns).Tidy ∧ (Json.obj ms).Alike (.obj ns)
  | none, none => True
  | _, _ => False

theorem lowering_eq (he : ExtensionSpec.lines es = ExtensionSpec.lines es') (hp : Proper projects)
    (hp' : Proper projects') (hprojects : ∀ n, Assoc.get? n projects = Assoc.get? n projects')
    (hstack : AlikeStacks stack stack') (path text : String) :
    lowering path text projects stack es = lowering path text projects' stack' es' := by
  unfold lowering
  rw [sortProjects_eq hp hp' hprojects, he]
  cases stack with
  | none =>
      cases stack' with
      | none => rfl
      | some ns => exact hstack.elim
  | some ms =>
      cases stack' with
      | none => exact hstack.elim
      | some ns =>
          dsimp only
          rw [jsonBlock_eq hstack.1 hstack.2.1 hstack.2.2]

/-- Inputs that agree as texts, as sets of extensions with distinct identifiers, and as maps at every depth
have equal prompts, and so do the parts of prompts that are made of extensions, and the file of the
dependencies. -/
theorem order_ignored (hes : ExtensionSpec.SameSet es es') (hids : (es.map ExtensionSpec.id).Nodup)
    (hp : Proper projects) (hp' : Proper projects')
    (hprojects : ∀ n, Assoc.get? n projects = Assoc.get? n projects')
    (hd : Proper deps) (hd' : Proper deps')
    (hdeps : ∀ name, Assoc.get? name deps = Assoc.get? name deps')
    (hstack : AlikeStacks stack stack') (hi : (Json.obj indexed).Tidy) (hi' : (Json.obj indexed').Tidy)
    (hindexed : (Json.obj indexed).Alike (.obj indexed')) :
    (∀ text, techStack text es = techStack text es') ∧
      (∀ path text, lowering path text projects stack es = lowering path text projects' stack' es') ∧
      (∀ path target text, index path target text (ExtensionSpec.skillText es target) =
        index path target text (ExtensionSpec.skillText es' target)) ∧
      (∀ path target text skill, compile path target text indexed deps skill es =
        compile path target text indexed' deps' skill es') ∧
      (∀ target, ExtensionSpec.skillText es target = ExtensionSpec.skillText es' target) ∧
      ExtensionSpec.lines es = ExtensionSpec.lines es' ∧ DepsFile.render deps = DepsFile.render deps' := by
  have hlines := ExtensionSpec.lines_eq hes hids
  have hskill := ExtensionSpec.skillText_eq hes hids
  refine ⟨fun text => ?_, lowering_eq hlines hp hp' hprojects hstack, fun path target text => ?_,
    fun path target text skill => ?_, hskill, hlines, ?_⟩
  · rw [techStack, techStack, hlines]
  · rw [hskill]
  · rw [compile, compile, hlines, dependencyLines_eq hd hd' hdeps, jsonBlock_eq hi hi' hindexed]
  · rw [DepsFile.render, DepsFile.render, DepsFile.content, DepsFile.content,
      Text.sortByKey_eq hd hd' hdeps]

/-- An extension with guidance for two targets. -/
def sampleExtension : ExtensionSpec := ⟨"b", "", "1.0.0", [("ts", "types"), ("py", "hints")], ["pre"]⟩

/-- The extension as it may be read again. -/
def sampleTurned : ExtensionSpec := ⟨"b", "", "1.0.0", [("py", "hints"), ("ts", "types")], ["pre"]⟩

/-- An extension without guidance. -/
def sampleNamed : ExtensionSpec := ⟨"a", "A", "2.0.0", [], []⟩

/-- Two extensions, two projects, two dependencies and a nested index, each in two orders. -/
theorem order_ignored_sample :
    lowering "a.md" "text" [(2, "q"), (1, "p")] none [sampleExtension, sampleNamed] =
        lowering "a.md" "text" [(1, "p"), (2, "q")] none [sampleNamed, sampleTurned] ∧
      compile "f.ts.md" "ts" "text" [("f", .obj [("y", .null), ("x", .int 1)])] [("b", "1"), ("a", "2")] ""
          [sampleExtension, sampleNamed] =
        compile "f.ts.md" "ts" "text" [("f", .obj [("x", .int 1), ("y", .null)])] [("a", "2"), ("b", "1")] ""
          [sampleNamed, sampleTurned] := by
  have hes : ExtensionSpec.SameSet [sampleExtension, sampleNamed] [sampleNamed, sampleTurned] := by
    refine ⟨[sampleNamed, sampleExtension], .swap _ _ _, .cons ⟨rfl, rfl, rfl, fun _ => rfl, rfl⟩
      (.cons ⟨rfl, rfl, rfl, fun target => ?_, rfl⟩ .nil)⟩
    simp only [sampleExtension, sampleTurned, Assoc.get?]
    split
    · next ht => subst ht; decide
    · rfl
  have hprojects (n : Int) : Assoc.get? n [(2, "q"), (1, "p")] = Assoc.get? n [(1, "p"), (2, "q")] := by
    simp only [Assoc.get?]
    split
    · next hn => subst hn; decide
    · rfl
  have hdeps (n : String) : Assoc.get? n [("b", "1"), ("a", "2")] = Assoc.get? n [("a", "2"), ("b", "1")] := by
    simp only [Assoc.get?]
    split
    · next hn => subst hn; decide
    · rfl
  have hindexed : (Json.obj [("f", .obj [("y", .null), ("x", .int 1)])]).Alike
      (.obj [("f", .obj [("x", .int 1), ("y", .null)])]) :=
    ⟨rfl, ⟨_, rfl, rfl, ⟨_, rfl, rfl⟩, ⟨_, rfl, rfl⟩, trivial⟩, trivial⟩
  have hstacks : AlikeStacks none none := trivial
  obtain ⟨-, hlowering, -, hcompile, -⟩ := order_ignored
    hes (by decide) (by simp [Proper]) (by simp [Proper]) hprojects (by simp [Proper]) (by simp [Proper])
    hdeps hstacks (by simp [Json.Tidy, Json.TidyMembers, Proper])
    (by simp [Json.Tidy, Json.TidyMembers, Proper]) hindexed
  exact ⟨hlowering "a.md" "text", hcompile "f.ts.md" "ts" "text" ""⟩

end Prompt

end IntentBuild
