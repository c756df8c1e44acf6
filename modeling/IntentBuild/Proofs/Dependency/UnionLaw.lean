import IntentBuild.Proofs.Dependency.Reconciler
import IntentBuild.Proofs.Operation.Session

/-!
# The union law

Start from a project that declares nothing.  After every row of deltas and replacements on its
files, of reconciling, and of deletions of files that are followed by reconciling, the manifest
is the union of what the files declare (`unionLaw_of_deals`).  The row goes on after an operation
that fails, and the files among the arguments may have been deleted meanwhile.
-/

namespace IntentBuild.Manifest

open Op
open Assoc (keys)

variable {p : Node} {w w' : Workspace}

/-! ## What the law says -/

/-- The manifest of a project, if it is there. -/
def node? (p : Node) (w : Workspace) : Option Node :=
  w.tables.findNode? (address p w.graph.instanceId)

/-- The map of the manifest of a project, empty if the manifest is not there. -/
def kept (p : Node) (w : Workspace) : Dependencies :=
  match node? p w with
  | some b => (texts? "deps" b).getD []
  | none => []

/-- The names of the edges from a file to the manifest. -/
def linked (p : Node) (w : Workspace) (file : Node) : List String :=
  match node? p w with
  | some b =>
      ((w.tables.edgesTo b.id (some .dependsOn)).filter fun e => e.source == file.id).map Edge.name
  | none => []

/-- A file declares a version for a name. -/
def Declares (file : Node) (name version : String) : Prop :=
  ∃ m, textsAt "deps" file = .ok m ∧ Assoc.get? name m = some version

/-- The manifest of a project is the union of what its files declare. -/
structure UnionLaw (p : Node) (w : Workspace) : Prop where
  /-- A file declares exactly the names of its edges to the manifest. -/
  names : ∀ {n}, FileOf w.tables p n →
    ∃ m, textsAt "deps" n = .ok m ∧ ∀ name, name ∈ keys m ↔ name ∈ linked p w n
  /-- The manifest has exactly the names that a file declares. -/
  union : ∀ name, name ∈ keys (kept p w) ↔ ∃ n v, FileOf w.tables p n ∧ Declares n name v
  /-- The version of a name is one that a file declares, and readable, and no file declares a
  higher one. -/
  highest : ∀ {name v}, Assoc.get? name (kept p w) = some v →
    (∃ n, FileOf w.tables p n ∧ Declares n name v) ∧ Version.isReadable v = true ∧
      ∀ n u, FileOf w.tables p n → Declares n name u → Version.isHigher u (some v) = false
  /-- The map that is read is the map that the manifest keeps. -/
  reads : ∀ {m w'}, (deps p).run w = .ok m w' → m = kept p w
  /-- The map of the manifest is what the files declare. -/
  agree : (declared p).run w = (deps p).run w
  /-- Reconciling does no more than reading. -/
  reconciled : (reconcile p).run w = (deps p).run w
  /-- Where the manifest is there and nothing is left to write, nothing changes at all. -/
  still : ∀ {b}, node? p w = some b → (w.graph.depth = 0 → w.graph.unsaved = false) →
    (reconcile p).run w = .ok (kept p w) w

/-- A project that declares nothing. -/
structure Undeclared (p : Node) (w : Workspace) : Prop where
  /-- The project is there. -/
  project : p.id ∈ keys w.tables.nodes
  /-- No file declares anything. -/
  file : ∀ {n}, FileOf w.tables p n → textsAt "deps" n = .ok []
  /-- The manifest, if it is there, is empty, and no edge leads to it. -/
  manifest : ∀ {b}, node? p w = some b →
    texts? "deps" b = some [] ∧ w.tables.edgesTo b.id (some .dependsOn) = []

/-- The second workspace comes from the first one by dealings with what the files of a project
declare. -/
inductive Deals (p : Node) (w : Workspace) : Workspace → Prop
  /-- Nothing happens. -/
  | none : Deals p w w
  /-- Deltas are applied, which may fail. -/
  | apply {w' : Workspace} {file : Node} {ds : List DependencyDelta} (h : Deals p w w')
      (hf : FileHandle p file w') (hds : ∀ d ∈ ds, d.Valid) :
      Deals p w ((applyDeltas p file ds).after w')
  /-- What a file declares is replaced, which may fail. -/
  | replace {w' : Workspace} {file : Node} {m : Dependencies} (h : Deals p w w')
      (hf : FileHandle p file w') : Deals p w ((replaceDeclared p file m).after w')
  /-- The manifest is reconciled, which may fail. -/
  | reconcile {w' : Workspace} (h : Deals p w w') : Deals p w ((Manifest.reconcile p).after w')
  /-- A file is deleted with all that is below it, and the manifest is reconciled. -/
  | forget {w' w₁ w₂ : Workspace} {file : Node} {count : Nat} {m : Dependencies}
      (h : Deals p w w') (hf : FileHandle p file w')
      (hd : (Graph.cascadeDelete file true).run w' = .ok count w₁)
      (hr : (Manifest.reconcile p).run w₁ = .ok m w₂) : Deals p w w₂

/-! ## Why it holds -/

theorem Undeclared.balanced (h : Undeclared p w) : Balanced p w := by
  have hps {b : Node} (hb : node? p w = some b) : pointers w.tables b.id = [] :=
    List.map_eq_nil_iff.mpr (h.manifest hb).2
  refine ⟨⟨h.project, fun hn => ⟨[], h.file hn, Assoc.proper_nil, fun h => nomatch h⟩,
    fun hn hm name => ?_, fun hb hp => ?_, fun hb => ?_⟩, fun hb => ?_⟩
  · have hm := (h.file hn).symm.trans hm.texts
    rw [Except.ok.injEq] at hm
    subst hm
    constructor
    · exact fun h => nomatch h
    · rintro ⟨b, hb, hp⟩
      rw [hps hb] at hp
      cases hp
  · rw [hps hb] at hp
    cases hp
  · exact ⟨[], (h.manifest hb).1, Assoc.proper_nil, Sorting.sort_nil⟩
  · rw [(h.manifest hb).1, hps hb, union_nil]

/-- Every dealing keeps the workspace sound and the ledger balanced. -/
theorem Deals.balanced (hw : w.Sound) (h0 : Undeclared p w) (h : Deals p w w') :
    w'.Sound ∧ Balanced p w' := by
  induction h with
  | none => exact ⟨hw, h0.balanced⟩
  | apply _ hf hds ih =>
      obtain ⟨hk, hb⟩ := (ends_applyDeltas ih.2 hf hds).after ih.1
      exact ⟨hk.reach.sound ih.1, hb⟩
  | replace _ hf ih =>
      obtain ⟨hk, hb⟩ := (ends_replaceDeclared ih.2 hf).after ih.1
      exact ⟨hk.reach.sound ih.1, hb⟩
  | reconcile _ ih =>
      obtain ⟨hk, hb⟩ := ((ends_reconcile ih.2.toEntries).weaken (fun _ _ _ h => h)
        fun _ _ h => h ih.2).after ih.1
      exact ⟨hk.reach.sound ih.1, hb⟩
  | @forget w₀ w₁ w₂ file _ _ _ hf hd hr ih =>
      obtain ⟨hw₀, hb⟩ := ih
      have hany : Graph.Downward Event.Any w₀ fun _ => True :=
        ⟨fun _ _ _ => trivial, fun _ _ _ _ _ _ => trivial⟩
      obtain ⟨hreach, hgone, -⟩ := (Graph.runs_cascadeDelete (A := Event.Any)
        (fun _ _ _ _ => trivial) (fun _ _ _ _ => trivial) (fun _ _ => trivial) hany
        fun _ _ => trivial).ok hw₀ hd
      have hw₁ := hreach.sound hw₀
      have he : Entries p (address p w₁.graph.instanceId) w₁.tables := by
        rw [hreach.instanceId_eq]
        exact hb.toEntries.clears hw₀.wellFormed hw₁.wellFormed (address_not_isFile _ _) rfl
          (fun hn => hf.below hn) (hgone rfl)
      have hend := ends_reconcile he hw₁
      rw [hr] at hend
      exact ⟨hend.1.reach.sound hw₁, hend.2⟩

section

variable {b : Node}

theorem Balanced.kept_eq (h : Balanced p w) (hb : node? p w = some b) :
    kept p w = union (versionIn w.tables) (pointers w.tables b.id) := by
  rw [kept, hb]
  simp only [h.balanced hb]
  rfl

/-- A pointer at a name says that a file declares the name. -/
theorem mem_linked_iff {n : Node} {name : String} :
    name ∈ linked p w n ↔ ∃ b, node? p w = some b ∧ (n.id, name) ∈ pointers w.tables b.id := by
  rw [linked]
  cases hb : node? p w with
  | none => simp
  | some b =>
      simp only [Option.some.injEq, exists_eq_left', pointers, List.mem_map, List.mem_filter,
        beq_iff_eq, Prod.mk.injEq, and_assoc]

theorem Balanced.declares_iff (h : Balanced p w) {n : Node} (hn : FileOf w.tables p n) {name v : String} :
    Declares n name v ↔ ∃ b, node? p w = some b ∧ (n.id, name) ∈ pointers w.tables b.id ∧
      versionIn w.tables n.id name = some v := by
  obtain ⟨m, hm⟩ := h.sheet hn
  rw [versionIn_eq hn.stored hm.texts]
  constructor
  · rintro ⟨m', hm', hv⟩
    have := hm.texts.symm.trans hm'
    cases this
    obtain ⟨b, hb, hp⟩ := (h.points hn hm name).mp (Assoc.mem_keys_of_get? hv)
    exact ⟨b, hb, hp, hv⟩
  · rintro ⟨b, -, -, hv⟩
    exact ⟨m, hm.texts, hv⟩

/-- What is said about a name is what the files declare. -/
theorem Balanced.mem_said_iff (h : Balanced p w) (hb : node? p w = some b) {name v : String} :
    some v ∈ saidOf (said (versionIn w.tables) (pointers w.tables b.id)) name ↔
      ∃ n, FileOf w.tables p n ∧ Declares n name v := by
  rw [mem_saidOf_said]
  constructor
  · rintro ⟨s, hs, hv⟩
    obtain ⟨n, hn, rfl⟩ := h.file hb hs
    exact ⟨n, hn, (h.declares_iff hn).mpr ⟨b, hb, hs, hv⟩⟩
  · rintro ⟨n, hn, hd⟩
    obtain ⟨b', hb', hs, hv⟩ := (h.declares_iff hn).mp hd
    rw [hb, Option.some.injEq] at hb'
    exact ⟨n.id, hb' ▸ hs, hv⟩

/-- The map of the manifest is the same whether the manifest was there or was just made. -/
theorem Balanced.node_run (hw : w.Sound) (h : Balanced p w) {w₁ : Workspace}
    (hb : (node p).run w = .ok b w₁) :
    w₁.Sound ∧ Balanced p w₁ ∧ node? p w₁ = some b ∧ kept p w₁ = kept p w := by
  have hend := ends_node h.project hw
  rw [hb] at hend
  obtain ⟨hk, hf⟩ := hend
  have hi := hk.reach.instanceId_eq
  obtain ⟨hbal, hfind⟩ := h.found hw.wellFormed (address_not_isFile _ _) hf
  obtain ⟨-, -, hnew⟩ := h.toEntries.found hw.wellFormed (address_not_isFile _ _) hf
  have hb' : Balanced p w₁ := by rw [Balanced, hi]; exact hbal
  have hnode : node? p w₁ = some b := by rw [node?, hi]; exact hfind
  refine ⟨hk.reach.sound hw, hb', hnode, ?_⟩
  cases hold : node? p w with
  | none =>
      obtain ⟨hps, -⟩ := hnew hold
      rw [hb'.kept_eq hnode, hps, union_nil, kept, hold]
  | some b₀ =>
      have hsame : w₁.tables = w.tables := by
        generalize w₁.tables = t at hf
        cases hf with
        | old => rfl
        | new hins hkey =>
            obtain ⟨-, -, hki, -⟩ := Tables.insertNode_eq_ok hins
            have hm := (Tables.findNode?_eq_some hw.wellFormed).mp hold
            exact absurd (Assoc.mem_keys_of_get? (hw.wellFormed.nodes.index_eq hm.1))
              (hm.2 ▸ hkey ▸ hki)
      rw [kept, kept, node?, node?, hsame, hi]

theorem Balanced.deps_run (hw : w.Sound) (h : Balanced p w) {w₁ : Workspace}
    (hb : (node p).run w = .ok b w₁) : (deps p).run w = .ok (kept p w) w₁ := by
  obtain ⟨-, hbal, hnode, hkept⟩ := h.node_run hw hb
  refine (bind_ok hb).trans ?_
  rw [textsAt_of_texts? (hbal.balanced hnode), ← hkept, hbal.kept_eq hnode]
  rfl

theorem Balanced.declared_run (hw : w.Sound) (h : Balanced p w) {w₁ : Workspace}
    (hb : (node p).run w = .ok b w₁) : (declared p).run w = .ok (kept p w) w₁ := by
  obtain ⟨-, hbal, hnode, hkept⟩ := h.node_run hw hb
  rw [Manifest.declared_run hb hbal.toEntries hnode, ← hkept, hbal.kept_eq hnode]

theorem Balanced.reconcile_run (hw : w.Sound) (h : Balanced p w) {w₁ : Workspace}
    (hb : (node p).run w = .ok b w₁) : (reconcile p).run w = .ok (kept p w) w₁ := by
  obtain ⟨hw₁, hbal, hnode, hkept⟩ := h.node_run hw hb
  have hagain := Graph.getOrCreate_again hw hb
  refine (bind_ok hb).trans ((bind_ok (hbal.declared_run hw₁ hagain)).trans ?_)
  have hholds : holds "deps" b (kept p w₁) = true := by
    rw [hbal.kept_eq hnode]
    exact holds_of_texts? (hbal.balanced hnode) proper_union
  rw [hholds, hkept]
  rfl

end

/-- A balanced ledger obeys the union law. -/
theorem Balanced.unionLaw (hw : w.Sound) (h : Balanced p w) : UnionLaw p w where
  names hn := by
    obtain ⟨m, hm⟩ := h.sheet hn
    exact ⟨m, hm.texts, fun name => (h.points hn hm name).trans mem_linked_iff.symm⟩
  union name := by
    cases hb : node? p w with
    | none =>
        rw [kept, hb]
        refine ⟨fun h => (nomatch h), ?_⟩
        rintro ⟨n, v, hn, hd⟩
        obtain ⟨b, hb', -⟩ := (h.declares_iff hn).mp hd
        rw [hb] at hb'
        cases hb'
    | some b =>
        rw [h.kept_eq hb, ← Classical.not_not (a := name ∈ _), ← Assoc.get?_eq_none_iff,
          get?_union_said, best_eq_none]
        constructor
        · intro hne
          obtain ⟨v, hv⟩ := Classical.not_forall.mp hne
          obtain ⟨hv, hvn⟩ := Classical.not_imp.mp hv
          obtain ⟨v, rfl⟩ := Option.ne_none_iff_exists'.mp hvn
          obtain ⟨n, hn, hd⟩ := (h.mem_said_iff hb).mp hv
          exact ⟨n, v, hn, hd⟩
        · rintro ⟨n, v, hn, hd⟩ hall
          exact absurd (hall _ ((h.mem_said_iff hb).mpr ⟨n, hn, hd⟩)) nofun
  highest {name v} hv := by
    cases hb : node? p w with
    | none => rw [kept, hb] at hv; cases hv
    | some b =>
        rw [h.kept_eq hb, get?_union_said] at hv
        obtain ⟨hin, hall⟩ := best_eq_some hv
        obtain ⟨n, hn, hd⟩ := (h.mem_said_iff hb).mp hin
        refine ⟨⟨n, hn, hd⟩, ?_, fun n' u hn' hd' => hall u ((h.mem_said_iff hb).mpr ⟨n', hn', hd'⟩)⟩
        obtain ⟨m, hm⟩ := h.sheet hn
        obtain ⟨m', hm', hg⟩ := hd
        have := hm.texts.symm.trans hm'
        cases this
        exact hm.orderly.readable hg
  reads {m w'} hm := by
    obtain ⟨b, w₁, hb, -⟩ := bind_eq_ok.mp hm
    rw [h.deps_run hw hb] at hm
    cases hm
    rfl
  agree := by
    cases hb : (node p).run w with
    | ok b w₁ => rw [h.declared_run hw hb, h.deps_run hw hb]
    | error e w₁ => exact (bind_error hb).trans (bind_error hb).symm
  reconciled := by
    cases hb : (node p).run w with
    | ok b w₁ => rw [h.reconcile_run hw hb, h.deps_run hw hb]
    | error e w₁ => exact (bind_error hb).trans (bind_error hb).symm
  still hb hs := h.reconcile_run hw (Graph.getOrCreate_old hb hs)

/-- From a project that declares nothing, every row of dealings leads to a manifest that is the
union of what the files declare. -/
theorem unionLaw_of_deals (hw : w.Sound) (h0 : Undeclared p w) (h : Deals p w w') :
    UnionLaw p w' := by
  obtain ⟨hw', hb⟩ := h.balanced hw h0
  exact hb.unionLaw hw'

/-! ## A project with a file -/

/-- The node that is made from the numbers of a fresh supply. -/
def sampleNode (n : Nat) (parent : Option String) (type : NodeType) (name : String) : Node :=
  { id := Supply.idOf n, parent, instanceId := "default", status := .active, type, name,
    content := none, contentHash := none, json := none, jsonHash := none, contentUpdated := none,
    created := .universal (2 * n), updated := .universal (2 * n + 1) }

/-- A project. -/
def sampleProject : Node := sampleNode 0 none .project "demo"

/-- A file of the project. -/
def sampleFile : Node := sampleNode 1 (some sampleProject.id) .specFile "a.md"

/-- A workspace without files, with an open transaction. -/
def blank : Workspace where
  files := { entries := [], workingDirectory := .ofText "/", nextTick := 0, tickLength := 1 }
  graph := { root := .ofText "/", instanceId := "default", depth := 1 }
  supply := { nextId := 0, nextTime := 0 }

/-- The workspace with the project and its file. -/
def sample : Workspace :=
  blank.emptied.session [.asked (.getOrCreate none .project "demo" none),
    .asked (.getOrCreate (some sampleProject) .specFile "a.md" none)]

theorem sample_nodes :
    sample.tables.nodes = [(sampleProject.id, sampleProject), (sampleFile.id, sampleFile)] := rfl

theorem sound_sample : sample.Sound := Workspace.sound_session _ (Workspace.sound_emptied _)

theorem eq_sampleFile {n : Node} (h : sample.tables.node? n.id = some n)
    (hty : n.type.IsFile) : n = sampleFile := by
  have hm := Assoc.mem_of_get? h
  rw [sample_nodes] at hm
  rcases List.mem_cons.mp hm with h | h
  · obtain rfl := congrArg Prod.snd h
    rcases hty with h | h | h <;> cases h
  · exact congrArg Prod.snd (List.mem_singleton.mp h)

theorem undeclared_sample : Undeclared sampleProject sample where
  project := Assoc.mem_keys_of_get? (v := sampleProject) rfl
  file hn := by rw [eq_sampleFile hn.stored hn.type]; rfl
  manifest hb := by cases hb

/-- A value that was read as a file is a handle of it as long as it stays right below the project. -/
theorem FileHandle.of_child {file : Node} (h : Handle file w) (hty : file.type.IsFile) (hw : w.Sound)
    (hc : (w.tables.node? file.id).all (fun n => n.parent = some p.id) = true) :
    FileHandle p file w where
  handle := h
  type := hty
  below {n} hn := by
    rw [hn, Option.all_some, decide_eq_true_iff] at hc
    have hid : n.id = file.id := hw.wellFormed.nodes.owned hn
    have hstored : w.tables.node? n.id = some n := hid ▸ hn
    have htype : n.type = file.type := congrArg NodeKey.type (h.key hn)
    exact ⟨hstored, htype ▸ hty, .single ⟨n, hstored, hc⟩⟩

theorem fileHandle_sample : FileHandle sampleProject sampleFile sample :=
  .of_child (.of_node? sound_sample rfl) (.inl rfl) sound_sample rfl

/-- A second file of the project. -/
def sampleTwin : Node := sampleNode 2 (some sampleProject.id) .specFile "b.md"

/-- The workspace with the project and both files. -/
def twins : Workspace :=
  sample.session [.asked (.getOrCreate (some sampleProject) .specFile "b.md" none)]

/-- One of the files declares two names. -/
def twinsDeclared : Workspace :=
  (applyDeltas sampleProject sampleFile
    [⟨.add, "left-pad", some "1.0.0"⟩, ⟨.add, "zod", some "3.1.0"⟩]).after twins

/-- The other one declares the first name too, at the same version in another spelling. -/
def twinsTied : Workspace :=
  (applyDeltas sampleProject sampleTwin [⟨.add, "left-pad", some "^1.0.0"⟩]).after twinsDeclared

/-- The first file takes the second name back. -/
def twinsRetracted : Workspace :=
  (applyDeltas sampleProject sampleFile [⟨.remove, "zod", none⟩]).after twinsTied

theorem eq_twin {n : Node} (h : twins.tables.node? n.id = some n) (hty : n.type.IsFile) :
    n = sampleFile ∨ n = sampleTwin := by
  have hm := Assoc.mem_of_get? h
  rw [show twins.tables.nodes = [(sampleProject.id, sampleProject), (sampleFile.id, sampleFile),
    (sampleTwin.id, sampleTwin)] from rfl] at hm
  rcases List.mem_cons.mp hm with h | h
  · obtain rfl := congrArg Prod.snd h
    rcases hty with h | h | h <;> cases h
  · rcases List.mem_cons.mp h with h | h
    · exact .inl (congrArg Prod.snd h)
    · exact .inr (congrArg Prod.snd (List.mem_singleton.mp h))

theorem undeclared_twins : Undeclared sampleProject twins where
  project := Assoc.mem_keys_of_get? (v := sampleProject) rfl
  file hn := by
    rcases eq_twin hn.stored hn.type with h | h
    · rw [h]; rfl
    · rw [h]; rfl
  manifest hb := by cases hb

theorem reach_applyDeltas (hw : w.Sound) (file : Node) (ds : List DependencyDelta) :
    Reach Event.Any w ((applyDeltas p file ds).after w) :=
  ((safe_applyDeltas Regime.declares_any p file ds).runs w trivial).after hw

/-- Two files tie on one name, and a second name is taken back. -/
theorem unionLaw_of_deals_sample :
    kept sampleProject twinsTied = [("left-pad", "1.0.0"), ("zod", "3.1.0")] ∧
    kept sampleProject twinsRetracted = [("left-pad", "1.0.0")] ∧
    UnionLaw sampleProject twinsRetracted := by
  obtain ⟨htwin, hfile, htied, hretracted⟩ :
      (twinsDeclared.tables.node? sampleTwin.id).all (fun n => n.parent = some sampleProject.id) = true ∧
      (twinsTied.tables.node? sampleFile.id).all (fun n => n.parent = some sampleProject.id) = true ∧
      kept sampleProject twinsTied = [("left-pad", "1.0.0"), ("zod", "3.1.0")] ∧
      kept sampleProject twinsRetracted = [("left-pad", "1.0.0")] := by decide +kernel
  have hw : twins.Sound := Workspace.sound_session _ sound_sample
  have hr₁ : Reach Event.Any twins twinsDeclared := reach_applyDeltas hw sampleFile _
  have hr₂ : Reach Event.Any twinsDeclared twinsTied :=
    reach_applyDeltas (hr₁.sound hw) sampleTwin _
  have hw₂ : twinsTied.Sound := hr₂.sound (hr₁.sound hw)
  have hf : Handle sampleFile twins := .of_node? hw rfl
  have hg : Handle sampleTwin twins := .of_node? hw rfl
  have h₁ : Deals sampleProject twins twinsDeclared :=
    .apply .none (.of_child hf (.inl rfl) hw rfl) (by decide)
  have h₂ : Deals sampleProject twins twinsTied :=
    .apply h₁ (.of_child (hg.reach hr₁) (.inl rfl) (hr₁.sound hw) htwin) (by decide)
  have h₃ : Deals sampleProject twins twinsRetracted :=
    .apply h₂ (.of_child ((hf.reach hr₁).reach hr₂) (.inl rfl) hw₂ hfile) (by decide)
  exact ⟨htied, hretracted, unionLaw_of_deals hw undeclared_twins h₃⟩

end IntentBuild.Manifest
