import IntentBuild.Proofs.Build.Stages
import IntentBuild.Proofs.Graph.Shelter

/-!
# What the stages shelter

The stages of a build delete specifications and intent files, each with all that is below it, and nothing
else.  So a shelter with no such node in it is spared by a whole build (`Regime.builds_sparing`).  The roots of a
project are in such a shelter (`Workspace.Base`).

`Regime.sheltering` is about a value that is read of nodes besides: at some addresses it stays.  Declaring
dependencies and stamping nodes have no bearing on it (`Undeclared`), and derived data of another file or of
another type has none either.
-/

namespace IntentBuild

open Op

/-! ## Shelters -/

namespace Workspace

variable {w₀ w w' : Workspace} {S : String → Prop} {type : NodeType} {i j : String}

/-- The class has no node of a type. -/
def Lacks (w : Workspace) (S : String → Prop) (type : NodeType) : Prop :=
  ∀ {j k}, S j → w.Keyed j k → k.type ≠ type

theorem lacks_clear (w : Workspace) (type : NodeType) : w.Lacks (w.Clear type) type :=
  fun hj hk => hj.2 _ _ .refl hk

theorem Clear.lacks_above (h : w.Clear type i) : w.Lacks (w.Above i) type :=
  fun hj hk => h.2 _ _ hj hk

/-- A node that was read with a type is in no class that lacks it. -/
theorem Lacks.not_mem (h : w₀.Lacks S type) (hS : w₀.Shelter S) (hstay : w₀.Stay S w) {n : Node}
    (hn : Handle n w) (ht : n.type = type) : ¬ S n.id := by
  intro hs
  obtain ⟨k, hk⟩ := hS.known hs
  obtain ⟨m, hm, hmk⟩ := hstay _ _ hs hk
  refine h hs hk ?_
  rw [← hmk, hn.key hm]
  exact ht

/-- Where all nodes above a clear node stay, it stays clear. -/
theorem Clear.stay (h : w₀.Clear type j) (hj : S j) (hS : w₀.Shelter S) (hstay : w₀.Stay S w) :
    w.Clear type j := by
  obtain ⟨k, hk⟩ := h.1
  refine ⟨⟨k, hstay _ _ hj hk⟩, fun a ka ha hka => ?_⟩
  -- upwards from the node, all that is above it now was above it before
  have above : S a ∧ Relation.ReflTransGen w₀.tables.IsParent a j := by
    clear hka
    induction ha using Relation.ReflTransGen.head_induction_on with
    | refl => exact ⟨hj, .refl⟩
    | @head a b hab _ ih =>
        obtain ⟨hb, hbj⟩ := ih
        obtain ⟨m, hm, hparent⟩ := hab
        obtain ⟨kb, hkb⟩ := hS.known hb
        have hkey : m.key = kb := (Keyed.key_eq ⟨m, hm, rfl⟩ (hstay _ _ hb hkb))
        have hp : kb.parent = some a := hkey ▸ hparent
        exact ⟨hS.above hb hkb hp, .head (hkb.isParent hp) hbj⟩
  obtain ⟨k', hk'⟩ := hS.known above.1
  rw [hka.key_eq (hstay _ _ above.1 hk')]
  exact h.2 a k' above.2 hk'

/-- The node is there, and neither a specification nor an intent file is above it. -/
structure Base (w : Workspace) (i : String) : Prop where
  /-- No specification is above it. -/
  specs : w.Clear .specFile i
  /-- No intent file is above it. -/
  intent : w.Clear .intentFile i

theorem Base.stay (h : w₀.Base i) (hi : S i) (hS : w₀.Shelter S) (hstay : w₀.Stay S w) : w.Base i :=
  ⟨h.specs.stay hi hS hstay, h.intent.stay hi hS hstay⟩

/-- A base is in a shelter of its own. -/
theorem Base.shelter (h : w.Base i) (hw : w.Sound) : w.Shelter (w.Above i) := by
  obtain ⟨k, hk⟩ := h.specs.1
  exact w.shelter_above hw hk

/-- While what is above it is spared, a base stays one. -/
theorem Base.reach (h : w.Base i) (hw : w.Sound) (hr : Reach (Event.Spares (w.Above i)) w w') :
    w'.Base i :=
  h.stay .refl (h.shelter hw) (Lasts.reach (w.lasts_stay _) hw hr (.refl w _))

end Workspace

/-- The changes that spare a class of nodes. -/
def Regime.sparing (w₀ : Workspace) (S : String → Prop) : Regime where
  admits := Event.Spares S
  holds := w₀.Stay S
  lasts hw hr h := Lasts.reach (w₀.lasts_stay S) hw hr h

namespace Regime

variable {w₀ w : Workspace} {S : String → Prop} {type : NodeType}

theorem declares_sparing : (sparing w₀ S).Declares :=
  ⟨fun _ _ _ => trivial, fun _ _ _ => trivial, fun _ => trivial, fun _ _ => trivial⟩

theorem forgets_sparing (hS : w₀.Shelter S) (hT : w₀.Lacks S type) :
    (sparing w₀ S).Forgets type :=
  fun _ _ hI hn ht => ((Graph.runs_cascadeDelete_spares hS hI (hT.not_mem hS hI hn ht)).mono
    fun _ => Graph.spares_of_drops).weaken fun _ _ _ _ => trivial

/-- A shelter without specifications and intent files is spared by a build. -/
theorem builds_sparing (c : BuildContext) (hS : w₀.Shelter S) (hs : w₀.Lacks S .specFile)
    (hi : w₀.Lacks S .intentFile) : (sparing w₀ S).Builds c where
  toDeclares := declares_sparing
  calls := trivial
  record _ := trivial
  dropRecord _ := trivial
  keep _ _ _ _ _ := trivial
  text _ _ _ _ := trivial
  node _ _ := trivial
  content _ _ _ := trivial
  forget {w n} hI hn ht := by
    rcases ht with ht | ht
    · exact forgets_sparing hS hs hI hn ht
    · exact forgets_sparing hS hi hI hn ht
  summary _ _ := trivial
  entry _ _ _ := ⟨fun _ => trivial, trivial⟩
  source _ _ _ := trivial

end Regime

namespace Build

variable {c : BuildContext} {w w' : Workspace} {i : String}

/-- Every stage keeps the bases. -/
theorem base_runStage (hw : w.Sound) (h : w.Base i) (s : Stage) : ((runStage c s).after w).Base i := by
  have hsafe : Safe (.sparing w (w.Above i)) (runStage c s) :=
    safe_stage (Regime.builds_sparing c (h.shelter hw) h.specs.lacks_above h.intent.lacks_above).carries
      (DepsFile.safe_sync Regime.declares_sparing (fun _ _ _ _ => trivial) fun _ _ =>
        ⟨trivial, trivial⟩) s
  exact h.reach hw ((hsafe.runs w (.refl w _)).after hw)

end Build

/-! ## Values that stay -/

/-- A value of nodes on which the declared map has no bearing. -/
def Undeclared {α : Type} (f : Node → α) : Prop :=
  ∀ {old new : Node}, new.content = old.content →
    (∀ {key}, key ≠ "deps" → Assoc.get? key new.members = Assoc.get? key old.members) → f new = f old

/-- The changes that spare a class of nodes and leave a value at some addresses alone. -/
def Regime.sheltering {α : Type} (w₀ : Workspace) (S : String → Prop) (K : NodeKey → Prop)
    (f : Node → α) : Regime where
  admits e := e.Spares S ∧ ∀ k, K k → e.Fixes k f
  holds := w₀.Stay S
  lasts hw hr h := Lasts.reach (w₀.lasts_stay S) hw (hr.mono fun _ he => he.1) h

section

variable {α : Type} {w₀ w w' : Workspace} {S : String → Prop} {K : NodeKey → Prop} {f : Node → α}
  {type : NodeType}

/-- A value that stays at the address of a node that is spared. -/
theorem Reach.has (h : Reach (Regime.sheltering w₀ S K f).admits w w') (hw : w.Sound) {i : String}
    {k : NodeKey} {a : α} (hi : S i) (hk : K k) (ha : w.Has i k f a) : w'.Has i k f a := by
  refine Lasts.reach (lasts_has i k f a) hw (h.mono fun e he => ⟨?_, he.2 k hk⟩) ha
  cases e with
  | dropNode n =>
      rintro rfl
      exact he.1 hi
  | _ => trivial

namespace Regime

/-- A change of a node is admitted where no address of the class has it. -/
theorem sheltering_content {old new : Node} (h : K old.key → f new = f old) :
    (sheltering w₀ S K f).admits (.content old new) :=
  ⟨trivial, fun _ hk he => h (he ▸ hk)⟩

theorem declares_sheltering (hf : Undeclared f) : (sheltering w₀ S K f).Declares where
  manifest _ _ _ := ⟨trivial, fun _ _ => trivial⟩
  redeclare _ _ hr := sheltering_content fun _ => hf hr.content hr.other
  link _ := ⟨trivial, fun _ _ => trivial⟩
  unlink _ _ := ⟨trivial, fun _ _ => trivial⟩

theorem records_sheltering (hf : Undeclared f) : (sheltering w₀ S K f).Records where
  keep _ _ _ hm hc := sheltering_content fun _ => hf hc fun _ => by rw [hm]
  calls := ⟨trivial, fun _ _ => trivial⟩
  record _ := ⟨trivial, fun _ _ => trivial⟩
  dropRecord _ := ⟨trivial, fun _ _ => trivial⟩

theorem places_sheltering (root : Node) (kind : Graph.FileKind) :
    (sheltering w₀ S K f).Places root kind :=
  fun _ _ _ _ _ => ⟨trivial, fun _ _ => trivial⟩

theorem derives_sheltering {file : Node}
    (hK : ∀ k, K k → k.type = type → k.parent ≠ some file.id) :
    (sheltering w₀ S K f).Derives file type where
  made _ _ _ _ := ⟨trivial, fun _ _ => trivial⟩
  changed old _ ht hp := sheltering_content fun hk => absurd hp (hK old.key hk ht)

theorem forgets_sheltering (hS : w₀.Shelter S) (hT : w₀.Lacks S type) :
    (sheltering w₀ S K f).Forgets type := by
  intro w n hI hn ht
  refine ((Graph.runs_cascadeDelete_spares hS hI (hT.not_mem hS hI hn ht)).mono fun e he => ?_).weaken
    fun _ _ _ _ => trivial
  refine ⟨Graph.spares_of_drops he, fun _ _ => ?_⟩
  cases e with
  | content => exact he.elim
  | _ => trivial

end Regime

end

end IntentBuild
