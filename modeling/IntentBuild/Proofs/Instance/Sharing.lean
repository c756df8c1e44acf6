import IntentBuild.Proofs.Instance.Lifetime

/-!
# Instances that share a graph

In a graph that several instances use, every child has the instance of its parent, and an edge links
nodes of one instance (`Workspace.Partitioned`).  What a service of an instance is asked for, by the
name of a project, leaves the rows of all other instances as they are, in their order
(`Workspace.instances_apart`).
-/

namespace IntentBuild

open Op

/-! ## Rows that stay -/

namespace Assoc

variable {κ α : Type} [DecidableEq κ] {k : κ} {m : List (κ × α)} {p : α → Bool}

/-- Setting a key changes no row of a kind, when neither the old row nor the new one is of it. -/
theorem rows_set {v : α} (hv : p v = false) (h : ∀ a, get? k m = some a → p a = false) :
    ((set k v m).map Prod.snd).filter p = (m.map Prod.snd).filter p := by
  induction m with
  | nil => simp [set, hv]
  | cons e m ih =>
      obtain ⟨k', a⟩ := e
      by_cases hk : k' = k
      · subst hk
        have ha : p a = false := h a (get?_cons_same ..)
        simp [set, hv, ha]
      · have ih := ih fun b hb => h b ((get?_cons_other hk a m).trans hb)
        simp only [set, if_neg hk, List.map_cons, List.filter_cons, ih]

/-- Erasing a key changes no row of a kind, when the row there is not of it. -/
theorem rows_erase (hm : Proper m) (h : ∀ a, get? k m = some a → p a = false) :
    ((erase k m).map Prod.snd).filter p = (m.map Prod.snd).filter p := by
  rw [erase, List.filter_map, List.filter_map, List.filter_filter]
  refine congrArg _ (List.filter_congr fun e he => ?_)
  by_cases hk : e.1 = k
  · have ha : p e.2 = false := h e.2 (hk ▸ get?_of_mem hm he)
    simp [hk, ha]
  · simp [hk]

end Assoc

/-- Rows of a kind stay where those of a wider kind do. -/
theorem filter_eq_of_filter {α : Type} {l l' : List α} {p q q' : α → Bool}
    (h : l'.filter p = l.filter p) (hq : ∀ a ∈ l, q a = true → p a = true)
    (hq' : ∀ a ∈ l', q' a = true → p a = true) (he : ∀ a, q' a = q a) :
    l'.filter q' = l.filter q := by
  have narrow {m : List α} {r : α → Bool} (hr : ∀ a ∈ m, r a = true → p a = true) :
      m.filter r = (m.filter p).filter r := by
    rw [List.filter_filter]
    refine List.filter_congr fun a ha => ?_
    cases hra : r a with
    | false => rfl
    | true => rw [hr a ha hra]; rfl
  rw [narrow hq, narrow hq', h]
  exact List.filter_congr fun a _ => he a

variable {i : String} {others : String → Bool} {w w' : Workspace}

/-- The rows that belong to the others are the same in both tables, in the same order. -/
structure Tables.Spares (others : String → Bool) (t t' : Tables) : Prop where
  /-- The same nodes. -/
  nodes : (t'.allNodes.filter fun n => others n.id) = t.allNodes.filter fun n => others n.id
  /-- The same edges. -/
  edges : (t'.allEdges.filter fun e => others e.source) = t.allEdges.filter fun e => others e.source
  /-- The same records. -/
  records : (t'.allRecords.filter fun r => others r.nodeId) =
    t.allRecords.filter fun r => others r.nodeId

namespace Tables.Spares

variable {t t' t'' : Tables}

theorem refl (t : Tables) : t.Spares others t := ⟨rfl, rfl, rfl⟩

theorem trans (h : t.Spares others t') (h' : t'.Spares others t'') : t.Spares others t'' :=
  ⟨h'.nodes.trans h.nodes, h'.edges.trans h.edges, h'.records.trans h.records⟩

/-- The others are the same nodes. -/
theorem node?_eq (h : t.Spares others t') (ht : t.WellFormed) (ht' : t'.WellFormed) {j : String}
    (hj : others j = true) : t'.node? j = t.node? j := by
  have mem {u : Tables} (hu : u.WellFormed) (n : Node) :
      u.node? j = some n ↔ n.id = j ∧ n ∈ u.allNodes.filter fun n => others n.id := by
    rw [List.mem_filter, mem_allNodes hu]
    constructor
    · intro hn
      obtain rfl := hu.nodes.owned hn
      exact ⟨rfl, hn, hj⟩
    · rintro ⟨rfl, hn, -⟩
      exact hn
  exact Option.ext fun n => by rw [mem ht', mem ht, h.nodes]

end Tables.Spares

/-- A record takes the place of one of the same node. -/
theorem Tables.nodeId_of_kept {t : Tables} (h : t.WellFormed) {r q : GenerationRecord}
    (hr : r.id ∉ Assoc.keys t.records) (hq : Assoc.get? (t.kept r).id t.records = some q) :
    q.nodeId = r.nodeId := by
  unfold kept at hq
  split at hq
  · rename_i id hid
    obtain ⟨old, ho, hk⟩ := h.records.inverse.mp hid
    rw [ho, Option.some.injEq] at hq
    exact hq ▸ congrArg RecordKey.node hk
  · exact absurd (Assoc.mem_keys_of_get? hq) hr

/-- A change within the instance leaves the rows of the others alone. -/
theorem Happens.spares {e : Event} (h : Happens e w w') (he : e.Quiet ∨ e.Within i others)
    (hw : w.Sound) (hf : w.Fenced i others) : w.tables.Spares others w'.tables := by
  cases h with
  | notice | supply | calls | depth | makeDirs | save | write | remove => exact .refl _
  | @node _ n t s h hs hj hn =>
      have hfresh : others n.id = false := by
        rw [← Bool.not_eq_true]
        exact fun ho => hs.fresh (hf.spent ho)
      obtain ⟨rfl, -⟩ := Tables.insertNode_eq_ok h
      refine ⟨Assoc.rows_set hfresh fun m hm => ?_, rfl, rfl⟩
      rw [hw.wellFormed.nodes.owned hm]
      exact hfresh
  | @content _ old new h hk hj =>
      have hold : others old.id = false := (he.resolve_left id).1
      have hid : old.id = new.id := hw.wellFormed.nodes.owned h
      refine ⟨Assoc.rows_set (hid ▸ hold) fun m hm => ?_, rfl, rfl⟩
      rw [hw.wellFormed.nodes.owned hm]
      exact hid ▸ hold
  | @dropNode _ n h hu =>
      have hn : others n.id = false := he.resolve_left id
      refine ⟨Assoc.rows_erase hw.wellFormed.nodes.proper fun m hm => ?_, rfl, rfl⟩
      rw [hw.wellFormed.nodes.owned hm]
      exact hn
  | @edge _ e t s h hs =>
      obtain ⟨hsource, -⟩ := he.resolve_left id
      obtain ⟨rfl, -⟩ := Tables.insertEdge_eq_ok h
      refine ⟨rfl, Assoc.rows_set hsource fun d hd => ?_, rfl⟩
      exact absurd (hw.spent (.inr (.inl (Assoc.mem_keys_of_get? hd)))) hs.fresh
  | @dropEdge _ e h =>
      have hsource : others e.source = false := by
        rcases he.resolve_left id with h' | h'
        · exact h'
        · exact (hf.ends h).trans h'
      refine ⟨rfl, Assoc.rows_erase hw.wellFormed.edges.proper fun d hd => ?_, rfl⟩
      rw [h, Option.some.injEq] at hd
      exact hd ▸ hsource
  | @record _ r s h hs =>
      have hr : others r.nodeId = false := by
        rw [← w.tables.kept_nodeId r]
        exact (he.resolve_left id).1
      have hnew : r.id ∉ Assoc.keys w.tables.records := fun hr =>
        hs.fresh (hw.spent (.inr (.inr hr)))
      refine ⟨rfl, rfl, Assoc.rows_set ?_ fun q hq => ?_⟩
      · rw [Tables.kept_nodeId]
        exact hr
      · rw [Tables.nodeId_of_kept hw.wellFormed hnew hq]
        exact hr
  | @dropRecord _ r h =>
      have hr : others r.nodeId = false := he.resolve_left id
      refine ⟨rfl, rfl, Assoc.rows_erase hw.wellFormed.records.proper fun q hq => ?_⟩
      rw [h, Option.some.injEq] at hq
      exact hq ▸ hr

namespace Reach

theorem spares (h : Reach (Event.Within i others) w w') (hw : w.Sound)
    (hf : w.Fenced i others) : w.tables.Spares others w'.tables := by
  induction h with
  | refl => exact .refl _
  | step h he hs ih => exact ih.trans (hs.spares he (h.sound hw) (h.fenced hf))

/-- A node that is none of the others belongs to the instance. -/
theorem instance_of_own (h : Reach (Event.Within i others) w w')
    (hi : ∀ {j n}, w.tables.node? j = some n → others j = false → n.instanceId = i) :
    ∀ {j n}, w'.tables.node? j = some n → others j = false → n.instanceId = i := by
  induction h with
  | refl => exact hi
  | @step w' w'' e h he hs ih =>
      intro j n hn hj
      cases hs with
      | @node _ m t s h hs _ _ =>
          obtain ⟨rfl, -⟩ := Tables.insertNode_eq_ok h
          change Assoc.get? j (Assoc.set m.id m w'.tables.nodes) = some n at hn
          rw [Assoc.get?_set] at hn
          split at hn
          · cases hn
            exact (he.resolve_left id).1
          · exact ih hn hj
      | @content _ old new ho hk _ =>
          change (w'.tables.putNode new).node? j = some n at hn
          rw [Tables.node?_putNode] at hn
          split at hn
          · rename_i hid
            have hinstance : new.instanceId = old.instanceId := congrArg NodeKey.instanceId hk
            exact Option.some.inj hn ▸ hinstance.trans (ih ho (hid ▸ hj))
          · exact ih hn hj
      | @dropNode _ m ho _ =>
          change (w'.tables.dropNode m).node? j = some n at hn
          rw [Tables.node?_dropNode] at hn
          split at hn
          · cases hn
          · exact ih hn hj
      | edge h => obtain ⟨rfl, -⟩ := Tables.insertEdge_eq_ok h; exact ih hn hj
      | _ => exact ih hn hj

end Reach

/-! ## Rows of instances -/

namespace Tables

/-- The identifier is that of a node of an instance. -/
def belongs (t : Tables) (i j : String) : Bool := (t.node? j).any fun n => n.instanceId == i

/-- The identifier is that of a node of another instance. -/
def foreign (t : Tables) (i j : String) : Bool := (t.node? j).any fun n => n.instanceId != i

/-- The nodes of an instance, in order. -/
def nodesIn (t : Tables) (i : String) : List Node := t.allNodes.filter fun n => n.instanceId == i

/-- The edges with an end at a node of an instance, in order. -/
def edgesIn (t : Tables) (i : String) : List Edge :=
  t.allEdges.filter fun e => t.belongs i e.source || t.belongs i e.target

/-- The records of the nodes of an instance, in order. -/
def recordsIn (t : Tables) (i : String) : List GenerationRecord :=
  t.allRecords.filter fun r => t.belongs i r.nodeId

variable {t : Tables} {i j : String}

theorem belongs_iff : t.belongs i j = true ↔ ∃ n, t.node? j = some n ∧ n.instanceId = i := by
  rw [belongs]
  cases t.node? j <;> simp

theorem foreign_iff : t.foreign i j = true ↔ ∃ n, t.node? j = some n ∧ n.instanceId ≠ i := by
  rw [foreign]
  cases t.node? j <;> simp

theorem foreign_of_node? {n : Node} (h : t.node? j = some n) :
    t.foreign i j = (n.instanceId != i) := by
  rw [foreign, h]
  rfl

end Tables

namespace Workspace

/-- Parents and edges stay within instances. -/
structure Partitioned (w : Workspace) : Prop where
  /-- A child has the instance of its parent. -/
  parents : ∀ {j n p m}, w.tables.node? j = some n → n.parent = some p →
    w.tables.node? p = some m → m.instanceId = n.instanceId
  /-- Both ends of an edge have one instance. -/
  ends : ∀ {j e m n}, Assoc.get? j w.tables.edges = some e → w.tables.node? e.source = some m →
    w.tables.node? e.target = some n → m.instanceId = n.instanceId

theorem partitioned_of_empty (h : w.tables = {}) : w.Partitioned := by
  refine ⟨fun hn _ _ => ?_, fun he _ _ => ?_⟩
  · rw [h] at hn
    cases hn
  · rw [h] at he
    cases he

/-- Only the nodes and the edges count. -/
theorem Partitioned.congr (h : w.Partitioned) (hn : w'.tables.nodes = w.tables.nodes)
    (he : w'.tables.edges = w.tables.edges) : w'.Partitioned := by
  have hnode (j : String) : w'.tables.node? j = w.tables.node? j := by
    rw [Tables.node?, hn, Tables.node?]
  exact ⟨fun hn hp hm => h.parents (hnode _ ▸ hn) hp (hnode _ ▸ hm),
    fun hj hm hn => h.ends (he ▸ hj) (hnode _ ▸ hm) (hnode _ ▸ hn)⟩

/-- A partitioned graph is fenced against the nodes of the other instances. -/
theorem Partitioned.fenced (h : w.Partitioned) (hw : w.Sound) (i : String) :
    (w.serve i).Fenced i (w.tables.foreign i) where
  instanceId := rfl
  parents {j n p} hn hp := by
    have hn : w.tables.node? j = some n := hn
    obtain ⟨m, hm⟩ := Assoc.exists_get?_of_mem_keys (hw.wellFormed.parents hn hp)
    rw [Tables.foreign_of_node? hm, Tables.foreign_of_node? hn, h.parents hn hp hm]
  roots {j n} hn _ hi := by
    have hn : w.tables.node? j = some n := hn
    rw [Tables.foreign_of_node? hn, hi, bne_self_eq_false]
  ends {j e} he := by
    obtain ⟨hs, ht⟩ := hw.wellFormed.ends he
    obtain ⟨m, hm⟩ := Assoc.exists_get?_of_mem_keys hs
    obtain ⟨n, hn⟩ := Assoc.exists_get?_of_mem_keys ht
    rw [Tables.foreign_of_node? hm, Tables.foreign_of_node? hn, h.ends he hm hn]
  spent {j} hj := by
    obtain ⟨n, hn, -⟩ := Tables.foreign_iff.mp hj
    exact hw.spent (.inl (Assoc.mem_keys_of_get? hn))

/-- What holds after changes within an instance of a partitioned graph. -/
structure Within (i : String) (w w' : Workspace) : Prop where
  /-- The changes. -/
  reach : Reach (Event.Within i (w.tables.foreign i)) (w.serve i) w'
  /-- The graph is in order before. -/
  sound : w.Sound
  /-- The graph is partitioned before. -/
  partitioned : w.Partitioned

namespace Within

variable (h : Within i w w')
include h

theorem sound' : w'.Sound := h.reach.sound (h.sound.serve i)

theorem fenced' : w'.Fenced i (w.tables.foreign i) :=
  h.reach.fenced (h.partitioned.fenced h.sound i)

theorem spares : w.tables.Spares (w.tables.foreign i) w'.tables :=
  h.reach.spares (h.sound.serve i)
    (h.partitioned.fenced h.sound i)

/-- A node is of the instance, or it was there before. -/
theorem node_cases {j : String} {n : Node} (hn : w'.tables.node? j = some n) :
    w.tables.foreign i j = false ∧ n.instanceId = i ∨
      w.tables.foreign i j = true ∧ w.tables.node? j = some n := by
  by_cases hj : w.tables.foreign i j = true
  · rw [h.spares.node?_eq h.sound.wellFormed h.sound'.wellFormed hj] at hn
    exact .inr ⟨hj, hn⟩
  · rw [Bool.not_eq_true] at hj
    refine .inl ⟨hj, h.reach.instance_of_own (fun {k m} hm hk => ?_) hn hj⟩
    have hm : w.tables.node? k = some m := hm
    by_contra hne
    rw [Tables.foreign_iff.mpr ⟨m, hm, hne⟩] at hk
    cases hk

/-- Two nodes of one side have one instance, where they had so before. -/
theorem instance_eq {j k : String} {m n : Node}
    (hside : w.tables.foreign i j = w.tables.foreign i k) (hm : w'.tables.node? j = some m)
    (hn : w'.tables.node? k = some n) (hbefore : w.tables.foreign i j = true →
      w.tables.node? j = some m → w.tables.node? k = some n → m.instanceId = n.instanceId) :
    m.instanceId = n.instanceId := by
  rcases h.node_cases hm with ⟨hj, hm⟩ | ⟨hj, hm⟩ <;>
    rcases h.node_cases hn with ⟨hk, hn⟩ | ⟨hk, hn⟩
  · rw [hm, hn]
  · rw [hj, hk] at hside
    cases hside
  · rw [hj, hk] at hside
    cases hside
  · exact hbefore hj hm hn

/-- The graph stays partitioned. -/
theorem partitioned' : w'.Partitioned where
  parents {j n p m} hn hp hm := by
    refine h.instance_eq (h.fenced'.parents hn hp) hm hn fun hforeign hm hn => ?_
    exact h.partitioned.parents hn hp hm
  ends {j e m n} he hm hn := by
    refine h.instance_eq (h.fenced'.ends he) hm hn fun hforeign hm hn => ?_
    have hmem : e ∈ w'.tables.allEdges.filter fun e => w.tables.foreign i e.source :=
      List.mem_filter.mpr ⟨List.mem_map.mpr ⟨_, Assoc.mem_of_get? he, rfl⟩, hforeign⟩
    rw [h.spares.edges] at hmem
    exact h.partitioned.ends ((Tables.mem_allEdges h.sound.wellFormed).mp (List.mem_filter.mp hmem).1)
      hm hn

/-- A node belongs to another instance exactly when it did so before. -/
theorem belongs_eq {b : String} (hb : b ≠ i) (j : String) :
    w'.tables.belongs b j = w.tables.belongs b j := by
  rw [Bool.eq_iff_iff, Tables.belongs_iff, Tables.belongs_iff]
  constructor
  · rintro ⟨n, hn, rfl⟩
    rcases h.node_cases hn with ⟨-, hn⟩ | ⟨-, hn⟩
    · exact absurd hn hb
    · exact ⟨n, hn, rfl⟩
  · rintro ⟨n, hn, rfl⟩
    refine ⟨n, ?_, rfl⟩
    rw [h.spares.node?_eq h.sound.wellFormed h.sound'.wellFormed
      (Tables.foreign_iff.mpr ⟨n, hn, hb⟩), hn]

omit h in
/-- A node of another instance is foreign. -/
theorem foreign_of_belongs {b j : String} (hb : b ≠ i) (hj : w.tables.belongs b j = true) :
    w.tables.foreign i j = true := by
  obtain ⟨n, hn, rfl⟩ := Tables.belongs_iff.mp hj
  exact Tables.foreign_iff.mpr ⟨n, hn, hb⟩

/-- The nodes of another instance are the same, in the same order. -/
theorem nodesIn_eq {b : String} (hb : b ≠ i) : w'.tables.nodesIn b = w.tables.nodesIn b := by
  refine filter_eq_of_filter h.spares.nodes (fun n hn hi => ?_) (fun n hn hi => ?_) fun _ => rfl
  · rw [beq_iff_eq] at hi
    have hn := (Tables.mem_allNodes h.sound.wellFormed).mp hn
    exact Tables.foreign_iff.mpr ⟨n, hn, hi ▸ hb⟩
  · rw [beq_iff_eq] at hi
    rcases h.node_cases ((Tables.mem_allNodes h.sound'.wellFormed).mp hn) with ⟨-, hn⟩ | ⟨hn, -⟩
    · exact absurd (hi.symm.trans hn) hb
    · exact hn

/-- The edges of another instance are the same, in the same order. -/
theorem edgesIn_eq {b : String} (hb : b ≠ i) : w'.tables.edgesIn b = w.tables.edgesIn b := by
  have source {v : Workspace} (hv : v.Sound) (hf : v.Fenced i (w.tables.foreign i)) {e : Edge}
      (he : e ∈ v.tables.allEdges)
      (ht : (w.tables.belongs b e.source || w.tables.belongs b e.target) = true) :
      w.tables.foreign i e.source = true := by
    rcases Bool.or_eq_true _ _ ▸ ht with ht | ht
    · exact foreign_of_belongs hb ht
    · exact (hf.ends ((Tables.mem_allEdges hv.wellFormed).mp he)).trans (foreign_of_belongs hb ht)
  refine filter_eq_of_filter h.spares.edges (fun e he ht => ?_) (fun e he ht => ?_) fun e => ?_
  · exact source (v := w.serve i) (h.sound.serve i)
      (h.partitioned.fenced h.sound i) he ht
  · rw [h.belongs_eq hb, h.belongs_eq hb] at ht
    exact source h.sound' h.fenced' he ht
  · rw [h.belongs_eq hb, h.belongs_eq hb]

/-- The records of another instance are the same, in the same order. -/
theorem recordsIn_eq {b : String} (hb : b ≠ i) : w'.tables.recordsIn b = w.tables.recordsIn b := by
  refine filter_eq_of_filter h.spares.records (fun r _ hr => ?_) (fun r _ hr => ?_) fun r => ?_
  · exact foreign_of_belongs hb hr
  · rw [h.belongs_eq hb] at hr
    exact foreign_of_belongs hb hr
  · exact h.belongs_eq hb _

end Within

end Workspace

/-! ## Services -/

/-- What the services of an instance are asked for.  A project is addressed by its name. -/
inductive ProjectRequest where
  /-- Sets up a project. -/
  | setup (name : String) (path : Path)
  /-- Installs an extension. -/
  | install (name : String) (e : ExtensionSpec)
  /-- Removes an extension. -/
  | uninstall (name : String) (id : String)
  /-- Applies deltas that a file declares. -/
  | applyDeltas (name : String) (file : Node) (deltas : List DependencyDelta)
  /-- Makes a file declare a map. -/
  | replaceDeclared (name : String) (file : Node) (declared : Dependencies)
  /-- Gives what the files declare. -/
  | declared (name : String)
  /-- Builds the manifest anew. -/
  | reconcile (name : String)
  /-- Writes the manifest to its file. -/
  | sync (name : String)
  /-- Verifies the file of the manifest. -/
  | verify (name : String)
  /-- Builds a project, with a new token that may have been used already. -/
  | build (cancelled : Bool) (s : Services) (name : String) (plan : Plan)

namespace ProjectRequest

/-- An operation on the project with a name. -/
def onProject {α : Type} (name : String) (f : Node → Op α) : Op Unit := do
  let p ← Project.require name
  let _ ← f p.node

/-- The operation of a request, without its value. -/
def op : ProjectRequest → Op Unit
  | setup name path => do let _ ← Project.setup name path
  | install name e => onProject name fun p => Registry.install p e
  | uninstall name id => onProject name fun p => Registry.remove p id
  | applyDeltas name file deltas => onProject name fun p => Manifest.applyDeltas p file deltas
  | replaceDeclared name file known =>
      onProject name fun p => Manifest.replaceDeclared p file known
  | declared name => onProject name Manifest.declared
  | reconcile name => onProject name Manifest.reconcile
  | sync name => onProject name DepsFile.sync
  | verify name => onProject name DepsFile.verify
  | build cancelled s name plan => do let _ ← Build.launch cancelled s name plan

/-- The file among the arguments, if there is one, is none of the others. -/
def Asks (others : String → Bool) : ProjectRequest → Prop
  | applyDeltas _ file _ | replaceDeclared _ file _ => file.Own others
  | _ => True

theorem within_onProject {α : Type} {name : String} {f : Node → Op α}
    (h : ∀ p : Node, p.Own others → Safe (.within i others) (f p)) :
    Safe (.within i others) (onProject name f) :=
  (Project.own_require name).andThen fun _ hp => (h _ hp.node).bind fun _ => .pure _

/-- A request stays within the instance. -/
theorem within {r : ProjectRequest} (h : r.Asks others) : Safe (.within i others) r.op := by
  cases r with
  | setup => exact (Project.own_setup ..).andThen fun _ _ => .pure _
  | install => exact within_onProject fun _ hp => Registry.within_install hp _
  | uninstall => exact within_onProject fun _ hp => Registry.within_remove hp _
  | applyDeltas => exact within_onProject fun _ hp => Manifest.within_applyDeltas hp h _
  | replaceDeclared => exact within_onProject fun _ hp => Manifest.within_replaceDeclared hp h _
  | declared => exact within_onProject fun _ hp => Manifest.within_declared hp
  | reconcile => exact within_onProject fun _ hp => Manifest.within_reconcile hp
  | sync => exact within_onProject fun _ hp => DepsFile.within_sync hp
  | verify => exact within_onProject fun _ hp => DepsFile.within_verify hp
  | build => exact (Build.within_launch ..).bind fun _ => .pure _

end ProjectRequest

namespace Project

/-- The projects that are listed are those of the instance. -/
theorem instance_of_mem_list {l : List Node} (h : list.run w = .ok l w') :
    ∀ n ∈ l, n.instanceId = w.graph.instanceId := by
  change EStateM.Result.ok _ w = .ok l w' at h
  injection h with h
  subst h
  intro n hn
  have hn := (List.mem_filter.mp (Sorting.mem_sort.mp hn)).2
  simp only [Option.isNone_some, Bool.false_or, Bool.and_eq_true, beq_iff_eq,
    Option.some.injEq] at hn
  exact hn.2.symm

/-- Looking for a project never fails. -/
theorem find?_run (name : String) (w : Workspace) : ∃ o, (find? name).run w = .ok o w := by
  rw [find?, bind_ok (child?_run ..)]
  split
  · exact ⟨none, rfl⟩
  · rw [bind_ok (child?_run ..), bind_ok (child?_run ..), bind_ok (child?_run ..)]
    split
    · exact ⟨_, rfl⟩
    · exact ⟨none, rfl⟩

/-- A project that is found is one of the instance, with its roots. -/
theorem instance_of_find? (hw : w.Sound) {name : String} {p : Project}
    (h : (find? name).run w = .ok (some p) w') : p.node.instanceId = w.graph.instanceId ∧
      p.specs.instanceId = w.graph.instanceId ∧ p.intent.instanceId = w.graph.instanceId ∧
        p.source.instanceId = w.graph.instanceId := by
  have hfound := find?_eq_ok h
  have instance_eq {k : NodeKey} {n : Node} (hn : w.tables.findNode? k = some n) :
      n.instanceId = k.instanceId := by
    have hk := ((Tables.findNode?_eq_some hw.wellFormed).mp hn).2
    exact congrArg NodeKey.instanceId hk
  exact ⟨instance_eq hfound.node, instance_eq hfound.specs, instance_eq hfound.intent,
    instance_eq hfound.source⟩

end Project

/-! ## Instances apart -/

namespace Workspace

/-- What the services of instances that share a graph may ask for.  The nodes among the arguments
belong to no other instance. -/
inductive Apart (w : Workspace) : Op Unit → Prop
  | asked {x : Op Unit} (h : Asked (w.tables.foreign w.graph.instanceId) x) : Apart w x
  | project (r : ProjectRequest) (h : r.Asks (w.tables.foreign w.graph.instanceId)) : Apart w r.op

theorem Apart.within {x : Op Unit} (h : w.Apart x) :
    Safe (.within w.graph.instanceId (w.tables.foreign w.graph.instanceId)) x := by
  cases h with
  | asked h => exact h.within
  | project r h => exact r.within h

theorem steady_of_apart {x : Op Unit} (h : w.Apart x) :
    Safe (.within w.graph.instanceId fun _ => false) x := by
  have hall (r : Request) : r.Asks fun _ => false := by
    cases r with
    | getOrCreate => exact fun _ _ => rfl
    | link | unlink | applyDeltas | replaceDeclared => exact ⟨rfl, rfl⟩
    | setup | build => trivial
    | _ => exact rfl
  cases h with
  | asked h =>
      cases h with
      | request r => exact r.within (hall r)
      | verify project => exact DepsFile.within_verify rfl
  | project r => exact r.within (by cases r <;> trivial)

/-- The graph stays partitioned all its life. -/
theorem Lived.partitioned (h : Lived Apart w) : w.Partitioned := by
  induction h with
  | opened hv h =>
      obtain ⟨t, -, -, rfl⟩ := openGraph_first hv h
      exact partitioned_of_empty rfl
  | @asked w h i x hx ih =>
      have hs := (h.steady steady_of_apart).sound
      have hwithin : Within i w (x.after (w.serve i)) :=
        ⟨(hx.within.runs _ (ih.fenced hs i)).after (hs.serve i), hs, ih⟩
      exact hwithin.partitioned'
  | began _ ih => exact ih.congr rfl rfl
  | ended h _ ih =>
      have hr := (reach_endTransaction (A := Event.None)
        (h.steady steady_of_apart).sound).tables_of_quiet
      exact ih.congr (congrArg Tables.nodes hr) (congrArg Tables.edges hr)
  | outside _ t ih => exact ih.congr rfl rfl
  | reopened hv _ _ hu hp ho ih _ =>
      have hsteady := hv.steady steady_of_apart
      obtain ⟨f, u, rfl, -, hagree⟩ :=
        openGraph_again hsteady.sound.wellFormed hsteady.named hp hu ho
      exact ih.congr hagree.nodes hagree.edges

/-- The workspace after the services of an instance were asked for some things. -/
def served (w : Workspace) (i : String) (rs : List ProjectRequest) : Workspace :=
  rs.foldl (fun w r => r.op.after w) (w.serve i)

theorem Partitioned.within_served (h : w.Partitioned) (hw : w.Sound) {rs : List ProjectRequest}
    (hr : ∀ r ∈ rs, r.Asks (w.tables.foreign i)) : Within i w (w.served i rs) := by
  have run : ∀ rs : List ProjectRequest, (∀ r ∈ rs, r.Asks (w.tables.foreign i)) →
      ∀ v, Reach (Event.Within i (w.tables.foreign i)) (w.serve i) v →
        Reach (Event.Within i (w.tables.foreign i)) (w.serve i)
          (rs.foldl (fun w r => r.op.after w) v) := by
    intro rs
    induction rs with
    | nil => exact fun _ _ hv => hv
    | cons r rs ih =>
        intro hrs v hv
        refine ih (fun r hr => hrs r (.tail _ hr)) _ (hv.trans ?_)
        exact ((r.within (hrs r (.head _))).runs v (hv.fenced (h.fenced hw i))).after
          (hv.sound (hw.serve i))
  exact ⟨run rs hr _ (.refl _), hw, h⟩

/-- In a graph that instances share, whatever the services of one instance are asked for leaves the
nodes, edges and records of every other instance as they are, in their order.  These services show only
projects of their instance, and every child has the instance of its parent. -/
theorem instances_apart (h : Lived Apart w) {rs : List ProjectRequest}
    (hr : ∀ r ∈ rs, r.Asks (w.tables.foreign i)) :
    let w' := w.served i rs
    (∀ b ≠ i, w'.tables.nodesIn b = w.tables.nodesIn b ∧
      w'.tables.edgesIn b = w.tables.edgesIn b ∧ w'.tables.recordsIn b = w.tables.recordsIn b) ∧
    (∃ l, Project.list.run w' = .ok l w' ∧ ∀ n ∈ l, n.instanceId = i) ∧
    (∀ name, ∃ o, (Project.find? name).run w' = .ok o w' ∧ ∀ p, o = some p →
      p.node.instanceId = i ∧ p.specs.instanceId = i ∧ p.intent.instanceId = i ∧
        p.source.instanceId = i) ∧
    ∀ n ∈ w'.tables.allNodes, ∀ p, n.parent = some p →
      ∃ m ∈ w'.tables.allNodes, m.id = p ∧ m.instanceId = n.instanceId := by
  intro w'
  have hwithin := h.partitioned.within_served (h.steady steady_of_apart).sound hr
  have hs := hwithin.sound'
  have hi : w'.graph.instanceId = i := hwithin.reach.instanceId_eq
  refine ⟨fun b hb => ⟨hwithin.nodesIn_eq hb, hwithin.edgesIn_eq hb, hwithin.recordsIn_eq hb⟩,
    ⟨_, rfl, fun n hn => (Project.instance_of_mem_list rfl n hn).trans hi⟩, fun name => ?_,
    fun n hn p hp => ?_⟩
  · obtain ⟨o, ho⟩ := Project.find?_run name w'
    refine ⟨o, ho, fun p hp => ?_⟩
    rw [← hi]
    exact Project.instance_of_find? hs (hp ▸ ho)
  · have hn := (Tables.mem_allNodes hs.wellFormed).mp hn
    obtain ⟨m, hm⟩ := Assoc.exists_get?_of_mem_keys (hs.wellFormed.parents hn hp)
    have hid : m.id = p := hs.wellFormed.nodes.owned hm
    refine ⟨m, (Tables.mem_allNodes hs.wellFormed).mpr (hid ▸ hm), hid, ?_⟩
    exact hwithin.partitioned'.parents hn hp hm

/-- One instance has a project. -/
def alone : Workspace :=
  (ProjectRequest.setup "demo" (.ofText "/work/a")).op.after (fresh.serve "alpha")

/-- Another instance shares the graph, and has a project of the same name. -/
def neighbours : Workspace :=
  (ProjectRequest.setup "demo" (.ofText "/work/b")).op.after (alone.serve "beta")

theorem lived_neighbours : Lived Apart neighbours := by
  have halone : Lived Apart alone :=
    lived_fresh.asked "alpha" (.project (.setup "demo" (.ofText "/work/a")) trivial)
  exact halone.asked "beta" (.project (.setup "demo" (.ofText "/work/b")) trivial)

/-- What a service of the first instance is asked for. -/
def chores : List ProjectRequest := [.setup "more" (.ofText "/work/more"), .reconcile "demo"]

/-- The first instance gets five more nodes, and the nodes of the other one stay. -/
theorem instances_apart_neighbours : (neighbours.tables.nodesIn "beta").length = 4 ∧
    ((neighbours.served "alpha" chores).tables.nodesIn "alpha").length = 9 ∧
      (neighbours.served "alpha" chores).tables.nodesIn "beta" = neighbours.tables.nodesIn "beta" := by
  have hasks : ∀ r ∈ chores, r.Asks (neighbours.tables.foreign "alpha") := by
    intro r hr
    rcases List.mem_cons.mp hr with rfl | hr
    · trivial
    · rw [List.mem_singleton.mp hr]
      trivial
  have h := instances_apart lived_neighbours hasks
  obtain ⟨hbeta, halpha⟩ : (neighbours.tables.nodesIn "beta").length = 4 ∧
      ((neighbours.served "alpha" chores).tables.nodesIn "alpha").length = 9 := by decide +kernel
  exact ⟨hbeta, halpha, (h.1 "beta" (by decide)).1⟩

/-- A node of the instance declares dependencies. -/
def declaresIn (t : Tables) (b : String) : Bool :=
  (t.nodesIn b).any fun n => Assoc.has "deps" n.members

/-- What a service is asked for with a node as its file. -/
def declaring (f : Node) : List ProjectRequest :=
  [.applyDeltas "demo" f [⟨.add, "left-pad", some "1.0.0"⟩]]

/-- A service is given a node of the other instance as a parent. -/
def adopted (p : Node) : Workspace :=
  (Request.getOrCreate (some p) .specFile "a.md" none).op.after (neighbours.serve "beta")

theorem lived_adopted (p : Node) : Lived Anything (adopted p) := by
  have halone : Lived Anything alone :=
    lived_fresh.asked "alpha" (.request (.setup "demo" (.ofText "/work/a")) trivial)
  have hneighbours : Lived Anything neighbours :=
    halone.asked "beta" (.request (.setup "demo" (.ofText "/work/b")) trivial)
  exact hneighbours.asked "beta"
    (.request (.getOrCreate (some p) .specFile "a.md" none) fun _ _ => rfl)

/-- A service that is given a node of another instance as a file changes this node, and one that is given
it as a parent makes a child that has another instance. -/
theorem changed_by_neighbour :
    (Lived Apart neighbours ∧ ∃ f ∈ neighbours.tables.allNodes, f.instanceId = "alpha" ∧
      (neighbours.served "beta" (declaring f)).tables.nodesIn "alpha" ≠
        neighbours.tables.nodesIn "alpha") ∧
    ∃ p ∈ neighbours.tables.allNodes, Lived Anything (adopted p) ∧
      ∃ n ∈ (adopted p).tables.allNodes, n.parent = some p.id ∧ n.instanceId ≠ p.instanceId := by
  obtain ⟨hbefore, hafter, hchild⟩ : declaresIn neighbours.tables "alpha" = false ∧
      (neighbours.tables.allNodes.any fun f => f.instanceId == "alpha" &&
        declaresIn (neighbours.served "beta" (declaring f)).tables "alpha") = true ∧
      (neighbours.tables.allNodes.any fun p => (adopted p).tables.allNodes.any fun n =>
        n.parent == some p.id && n.instanceId != p.instanceId) = true := by decide +kernel
  constructor
  · obtain ⟨f, hf, htest⟩ := List.any_eq_true.mp hafter
    rw [Bool.and_eq_true, beq_iff_eq] at htest
    refine ⟨lived_neighbours, f, hf, htest.1, fun hsame => ?_⟩
    rw [declaresIn, hsame, ← declaresIn, hbefore] at htest
    cases htest.2
  · obtain ⟨p, hp, hany⟩ := List.any_eq_true.mp hchild
    obtain ⟨n, hn, htest⟩ := List.any_eq_true.mp hany
    rw [Bool.and_eq_true, beq_iff_eq, bne_iff_ne] at htest
    exact ⟨p, hp, lived_adopted p, n, hn, htest.1, htest.2⟩

end Workspace

end IntentBuild
