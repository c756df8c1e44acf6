import IntentBuild.Proofs.Dependency.Exactness
import IntentBuild.Proofs.Extension.Tended
import IntentBuild.Proofs.Graph.Cascade
import IntentBuild.Proofs.Text.Order

/-!
# The registry of extensions

The extensions of a project are kept by nodes, one for each identifier, below the container of the project.
A node that *bears* an extension is read as this extension, field for field (`Registry.ofNode_of_bears`), so
the registry of a project is the chart of the extensions that its nodes bear (`Registry.installed_run`).

Installing and removing turn the chart at one identifier of one project, and leave all that is outside the
extensions of this project as it was (`Registry.Turns`).
-/

namespace IntentBuild

open Op
open Assoc (keys)
open Relation (ReflTransGen TransGen)

/-! ## Extensions on nodes -/

namespace ExtensionSpec

/-- The extension has an identifier and a version. -/
structure Valid (e : ExtensionSpec) : Prop where
  /-- The identifier is not empty. -/
  id : e.id ≠ ""
  /-- The version is not empty. -/
  version : e.version ≠ ""

variable {e : ExtensionSpec}

open Json.Read in
theorem entries_ofTexts (m : List (String × String)) :
    entries text (m.map fun s => (s.1, Json.str s.2)) = .ok m := by
  induction m with
  | nil => rfl
  | cons s m ih =>
      rw [List.map_cons, entries, ih]
      rfl

open Json.Read in
/-- A valid extension is read from members among which it finds its own. -/
theorem read_of_members (h : e.Valid) {ms : Members}
    (hms : ∀ {key}, key ≠ "deps" → Assoc.get? key ms = Assoc.get? key (e.toJson.members?.getD [])) :
    read (.obj ms) = .ok e := by
  have hid : required ms "id" nonempty = .ok e.id :=
    required2_of_get? (hms (by decide)) (nonempty_str h.id)
  have hname : withDefault ms "name" "" text = .ok e.name := withDefault2_of_get? (hms (by decide)) rfl
  have hversion : required ms "version" nonempty = .ok e.version :=
    required2_of_get? (hms (by decide)) (nonempty_str h.version)
  have hskills : withDefault2 ms "skillPrompting" "skill_prompting" [] (Json.Read.map text) = .ok e.skills :=
    withDefault2_of_get? (hms (by decide)) (entries_ofTexts e.skills)
  have hhooks : withDefault ms "hooks" [] (Json.Read.list text) = .ok e.hooks := by
    refine withDefault2_of_get? (hms (by decide)) ?_
    have hitems : itemsFrom text 0 (e.hooks.map Json.str) = .ok (e.hooks.map fun s => s) :=
      itemsFrom_map (fun s _ => (rfl : text (.str s) = .ok s)) 0
    rwa [List.map_id'' fun _ => rfl] at hitems
  rw [read, record, hid, hname, hversion, hskills, hhooks]
  rfl

end ExtensionSpec

namespace Registry

/-- The node keeps a valid extension, whatever dependencies it declares. -/
structure Bears (n : Node) (e : ExtensionSpec) : Prop where
  /-- The extension is valid. -/
  valid : e.Valid
  /-- The members of the extension are those of the node. -/
  members : ∀ {key}, key ≠ "deps" → Assoc.get? key n.members = Assoc.get? key (e.toJson.members?.getD [])

theorem Bears.alike {n n' : Node} {e : ExtensionSpec} (h : Bears n e) (hn : n.Alike n') : Bears n' e :=
  ⟨h.valid, fun hk => (hn.members hk).trans (h.members hk)⟩

/-- The extension that a node bears is read from it. -/
theorem ofNode_of_bears {n : Node} {e : ExtensionSpec} (h : Bears n e) : ofNode n = .ok e := by
  rw [ofNode, ExtensionSpec.read_of_members h.valid h.members]
  rfl

end Registry

/-! ## Charts -/

namespace Tables

variable {t t' : Tables} {i p id : String}

/-- The container of the extensions of a project. -/
def container? (t : Tables) (i p : String) : Option Node :=
  t.findNode? ⟨some p, i, .extensions, Registry.containerName⟩

/-- The node of an extension of a project. -/
def extension? (t : Tables) (i p id : String) : Option Node :=
  (t.container? i p).bind fun c => t.findNode? ⟨some c.id, i, .extension, id⟩

theorem extension?_eq_some (hf : t.WellFormed) {n : Node} : t.extension? i p id = some n ↔
    ∃ c, t.container? i p = some c ∧ t.node? n.id = some n ∧ n.key = ⟨some c.id, i, .extension, id⟩ := by
  rw [extension?, Option.bind_eq_some_iff]
  exact exists_congr fun c => and_congr_right fun _ => findNode?_eq_some hf

theorem name_of_extension? (hf : t.WellFormed) {n : Node} (h : t.extension? i p id = some n) :
    n.name = id := by
  obtain ⟨c, -, -, hk⟩ := (extension?_eq_some hf).mp h
  exact congrArg NodeKey.name hk

/-- The container of a project is of this project alone. -/
theorem container?_inj (hf : t.WellFormed) {j q : String} {c c' : Node} (hc : t.container? i p = some c)
    (hc' : t.container? j q = some c') (hid : c.id = c'.id) : i = j ∧ p = q := by
  obtain ⟨hstored, hk⟩ := (findNode?_eq_some hf).mp hc
  obtain ⟨hstored', hk'⟩ := (findNode?_eq_some hf).mp hc'
  rw [hid, hstored', Option.some.injEq] at hstored
  rw [← hstored, hk'] at hk
  exact ⟨congrArg NodeKey.instanceId hk.symm, Option.some.inj (congrArg NodeKey.parent hk.symm)⟩

/-- Where the anchors are held, each extension has the node that it had. -/
theorem Holds.extension? (h : t.Holds t') (hf : t.WellFormed) (hf' : t'.WellFormed) (i p id : String) :
    Option.Rel Node.Alike (t.extension? i p id) (t'.extension? i p id) := by
  cases hc : t.container? i p with
  | none =>
      have hc' : t'.container? i p = none := h.findNode?_none hf hf' trivial hc
      rw [Tables.extension?, Tables.extension?, hc, hc']
      exact .none
  | some c =>
      obtain ⟨c', hc', hid, -⟩ :=
        h.findNode? hf hf' (k := ⟨some p, i, .extensions, Registry.containerName⟩) trivial hc
      have hc' : t'.container? i p = some c' := hc'
      rw [Tables.extension?, Tables.extension?, hc, hc', Option.bind_some, Option.bind_some, hid]
      cases hn : t.findNode? ⟨some c.id, i, .extension, id⟩ with
      | none =>
          rw [h.findNode?_none hf hf' (k := ⟨some c.id, i, .extension, id⟩) trivial hn]
          exact .none
      | some n =>
          obtain ⟨n', hn', -, halike⟩ :=
            h.findNode? hf hf' (k := ⟨some c.id, i, .extension, id⟩) trivial hn
          rw [hn']
          exact .some halike

/-- The nodes of the extensions of a project bear the extensions of a chart. -/
def Charts (t : Tables) (i p : String) (m : String → Option ExtensionSpec) : Prop :=
  ∀ id, Option.Rel Registry.Bears (t.extension? i p id) (m id)

namespace Charts

variable {m : String → Option ExtensionSpec} (hm : t.Charts i p m)
include hm

/-- The node of an extension bears an extension of the chart. -/
theorem bears {n : Node} (hn : t.extension? i p id = some n) : ∃ e, m id = some e ∧ Registry.Bears n e := by
  have hrel := hm id
  rw [hn] at hrel
  generalize m id = o at hrel
  cases hrel with
  | some h => exact ⟨_, rfl, h⟩

/-- An extension of the chart is borne by its node. -/
theorem node {e : ExtensionSpec} (he : m id = some e) :
    ∃ n, t.extension? i p id = some n ∧ Registry.Bears n e := by
  have hrel := hm id
  rw [he] at hrel
  generalize t.extension? i p id = o at hrel
  cases hrel with
  | some h => exact ⟨_, rfl, h⟩

theorem isSome_eq (id : String) : (t.extension? i p id).isSome = (m id).isSome := by
  have hrel := hm id
  generalize t.extension? i p id = o, m id = o' at hrel
  cases hrel <;> rfl

theorem holds (h : t.Holds t') (hf : t.WellFormed) (hf' : t'.WellFormed) : t'.Charts i p m := by
  intro id
  have hrel := hm id
  have hext := h.extension? hf hf' i p id
  generalize t.extension? i p id = o, t'.extension? i p id = o', m id = e at hrel hext ⊢
  cases hext with
  | none => exact hrel
  | some halike =>
      cases hrel with
      | some hbears => exact .some (hbears.alike halike)

end Charts

/-- The children of a container are the extensions of its project. -/
theorem mem_extensions (ha : t.Arranged) (hf : t.WellFormed) {c n : Node} (hc : t.container? i p = some c) :
    n ∈ t.listNodes (some c.id) (some .extension) none ↔ t.extension? i p n.name = some n := by
  obtain ⟨hstored, hkey⟩ := (findNode?_eq_some hf).mp hc
  rw [Tables.extension?, hc, Option.bind_some, findNode?_eq_some hf]
  constructor
  · intro hn
    obtain ⟨hnode, hparent, htype⟩ := Graph.mem_listNodes hf hn
    refine ⟨hnode, ?_⟩
    have hinstance := ha.instanceId hnode (htype _ rfl) hparent hstored
    have hi : c.instanceId = i := congrArg NodeKey.instanceId hkey
    rw [Node.key, hparent, htype _ rfl, hinstance, hi]
  · rintro ⟨hnode, hk⟩
    have hparent : n.parent = some c.id := congrArg NodeKey.parent hk
    have htype : n.type = .extension := congrArg NodeKey.type hk
    refine List.mem_filter.mpr ⟨List.mem_filter.mpr ⟨(mem_allNodes hf).mpr hnode, ?_⟩, ?_⟩
    · simp [hparent]
    · simp [htype]

/-- The children of a container have different names. -/
theorem nodup_extensions (ha : t.Arranged) (hf : t.WellFormed) {c : Node} (hc : t.container? i p = some c) :
    ((t.listNodes (some c.id) (some .extension) none).map Node.name).Nodup := by
  have hnodup : (t.listNodes (some c.id) (some .extension) none).Nodup :=
    ((List.Nodup.of_map _ (nodup_allNodes hf)).filter _).filter _
  refine hnodup.map_on fun m hm n hn hmn => ?_
  have hfound := (mem_extensions ha hf hc).mp hm
  rwa [hmn, (mem_extensions ha hf hc).mp hn, Option.some.injEq, eq_comm] at hfound

end Tables

namespace Registry

variable {w : Workspace} {project : Node} {m : String → Option ExtensionSpec}

/-- The extensions of a chart, each once, in the order of their identifiers. -/
structure Listed (m : String → Option ExtensionSpec) (es : List ExtensionSpec) : Prop where
  /-- The order is strict. -/
  sorted : es.Pairwise fun a b => Text.charsLe a.id b.id = true ∧ a.id ≠ b.id
  /-- The extensions are those of the chart. -/
  mem : ∀ e, e ∈ es ↔ m e.id = some e

/-- Extensions with different identifiers are listed when they are in order. -/
theorem listed_sortById {es : List ExtensionSpec} (hids : (es.map ExtensionSpec.id).Nodup)
    (hmem : ∀ e, e ∈ es ↔ m e.id = some e) : Listed m (ExtensionSpec.sortById es) where
  sorted := by
    have hnodup : ((ExtensionSpec.sortById es).map ExtensionSpec.id).Nodup :=
      ((Sorting.sort_perm _).map _).nodup_iff.mpr hids
    have hsorted := Sorting.pairwise_sort (fun a b c => @Text.charsLe_trans a.id b.id c.id)
      (fun a b => Text.charsLe_total a.id b.id) es
    exact hsorted.and (List.pairwise_map.mp hnodup)
  mem e := Sorting.mem_sort.trans (hmem e)

/-- There is one list for a chart. -/
theorem Listed.unique {es es' : List ExtensionSpec} (h : Listed m es) (h' : Listed m es') : es = es' := by
  have nodup {l : List ExtensionSpec} (hl : Listed m l) : l.Nodup :=
    hl.sorted.imp fun hab heq => hab.2 (congrArg ExtensionSpec.id heq)
  have hperm : es.Perm es' :=
    (List.perm_ext_iff_of_nodup (nodup h) (nodup h')).mpr fun e => (h.mem e).trans (h'.mem e).symm
  exact hperm.eq_of_pairwise (fun _ _ _ _ hab hba => absurd (Text.charsLe_antisymm hab.1 hba.1) hab.2)
    h.sorted h'.sorted

/-- Where nodes of different names bear the extensions of a chart, these are read from them, and are listed. -/
theorem listed_of_bears {ns : List Node} (hnames : (ns.map Node.name).Nodup)
    (hbears : ∀ n ∈ ns, ∃ e, m n.name = some e ∧ Bears n e)
    (hall : ∀ {id e}, m id = some e → ∃ n ∈ ns, n.name = id) (hid : ∀ {id e}, m id = some e → e.id = id) :
    ∃ es, ns.mapM ofNode = .ok es ∧ Listed m (ExtensionSpec.sortById es) := by
  have : Nonempty ExtensionSpec := ⟨⟨"", "", "", [], []⟩⟩
  choose! g hg hb using hbears
  refine ⟨ns.map g, Manifest.mapM_eq_ok fun n hn => ofNode_of_bears (hb n hn), listed_sortById ?_ fun e => ?_⟩
  · have hids : (ns.map g).map ExtensionSpec.id = ns.map Node.name := by
      rw [List.map_map]
      exact List.map_congr_left fun n hn => hid (hg n hn)
    rwa [hids]
  · rw [List.mem_map]
    constructor
    · rintro ⟨n, hn, rfl⟩
      rw [hid (hg n hn)]
      exact hg n hn
    · intro he
      obtain ⟨n, hn, hname⟩ := hall he
      have hgn := hg n hn
      rw [hname, he, Option.some.injEq] at hgn
      exact ⟨n, hn, hgn.symm⟩

/-- The container of a project is looked up. -/
theorem container_run (w : Workspace) (project : Node) :
    (Graph.child? (some project) .extensions containerName).run w =
      .ok (w.tables.container? w.graph.instanceId project.id) w :=
  rfl

/-- The extensions of a project are those of its chart. -/
theorem installed_run (hw : w.Sound) (ha : w.tables.Arranged)
    (hm : w.tables.Charts w.graph.instanceId project.id m) (hid : ∀ {id e}, m id = some e → e.id = id) :
    ∃ es, (installed project).run w = .ok es w ∧ Listed m es := by
  cases hc : w.tables.container? w.graph.instanceId project.id with
  | none =>
      refine ⟨[], ?_, .nil, fun e => ?_⟩
      · rw [installed, bind_ok (container_run w project), hc]
        rfl
      · refine iff_of_false List.not_mem_nil fun he => ?_
        obtain ⟨n, hn, -⟩ := hm.node he
        rw [Tables.extension?, hc] at hn
        cases hn
  | some c =>
      have hchildren : (Graph.children c (some .extension)).run w =
          .ok (w.tables.listNodes (some c.id) (some .extension) none) w := rfl
      have hmem := fun n => Tables.mem_extensions (n := n) ha hw.wellFormed hc
      obtain ⟨es, hread, hlisted⟩ := listed_of_bears (Tables.nodup_extensions ha hw.wellFormed hc)
        (fun n hn => hm.bears ((hmem n).mp hn)) (fun he => by
          obtain ⟨n, hn, -⟩ := hm.node he
          have hname := Tables.name_of_extension? hw.wellFormed hn
          exact ⟨n, (hmem n).mpr (hname ▸ hn), hname⟩) hid
      refine ⟨ExtensionSpec.sortById es, ?_, hlisted⟩
      rw [installed, bind_ok (container_run w project), hc]
      dsimp only
      rw [bind_ok hchildren, hread]
      rfl

end Registry

/-! ## One node put in -/

namespace Tables

variable {t t' t'' : Tables} {n n' : Node} {k : NodeKey}

/-- A node is put in, new or in place of one with its key, and nothing else is changed. -/
structure Puts (t : Tables) (n : Node) (t' : Tables) : Prop where
  /-- The node is put in. -/
  node? : ∀ j, t'.node? j = if j = n.id then some n else t.node? j
  /-- The node keeps its key. -/
  key : ∀ {m}, t.node? n.id = some m → m.key = n.key
  /-- The edges. -/
  edges : t'.edges = t.edges
  /-- The records. -/
  records : t'.records = t.records

namespace Puts

theorem of_found {json : Option Members} (h : Graph.Found t k json n t') (hf : t.WellFormed) :
    t.Puts n t' := by
  cases h with
  | old h =>
      have hstored := ((findNode?_eq_some hf).mp h).1
      refine ⟨fun j => ?_, fun hm => ?_, rfl, rfl⟩
      · split
        · rename_i hj
          rw [hj, hstored]
        · rfl
      · rw [hstored, Option.some.injEq] at hm
        rw [hm]
  | new h _ _ _ _ =>
      obtain ⟨rfl, hid, -⟩ := insertNode_eq_ok h
      exact ⟨fun _ => Assoc.get?_set .., fun hm => absurd (Assoc.mem_keys_of_get? hm) hid, rfl, rfl⟩

/-- A node that is put in is changed. -/
theorem again (h : t.Puts n t') (hid : n'.id = n.id) (hk : n'.key = n.key) : t.Puts n' (t'.putNode n') where
  node? j := by
    rw [node?_putNode, h.node?, hid]
    split <;> rfl
  key hm := (h.key (hid ▸ hm)).trans hk.symm
  edges := h.edges
  records := h.records

/-- What is found at an address is the node that was put there. -/
theorem findNode? (h : t.Puts n t') (hf : t.WellFormed) (hf' : t'.WellFormed) (k : NodeKey) :
    t'.findNode? k = if k = n.key then some n else t.findNode? k := by
  have hn : t'.node? n.id = some n := by rw [h.node?, if_pos rfl]
  split
  · rename_i hk
    exact (findNode?_eq_some hf').mpr ⟨hn, hk.symm⟩
  · rename_i hk
    refine Option.ext fun m => ?_
    rw [findNode?_eq_some hf', findNode?_eq_some hf]
    constructor
    · rintro ⟨hm, hmk⟩
      rw [h.node?] at hm
      split at hm
      · cases hm
        exact absurd hmk.symm hk
      · exact ⟨hm, hmk⟩
    · rintro ⟨hm, hmk⟩
      have hid : m.id ≠ n.id := fun hid => hk (by rw [← hmk, h.key (hid ▸ hm)])
      refine ⟨?_, hmk⟩
      rw [h.node?, if_neg hid]
      exact hm

end Puts

end Tables

/-! ## What is outside -/

namespace Tables

variable {t t' : Tables} {i p : String}

/-- The node is the container of the extensions of a project, or below it. -/
def InExtensions (t : Tables) (i p j : String) : Prop :=
  ∃ c, t.container? i p = some c ∧ ReflTransGen t.IsParent c.id j

/-- No project is among the extensions. -/
theorem Arranged.not_inExtensions (ha : t.Arranged) (hf : t.WellFormed) {j : String} {n : Node}
    (hn : t.node? j = some n) (htype : n.type = .project) : ¬ t.InExtensions i p j := by
  rintro ⟨c, hc, hbelow⟩
  cases hbelow with
  | refl =>
      obtain ⟨hc, hk⟩ := (findNode?_eq_some hf).mp hc
      rw [hc, Option.some.injEq] at hn
      have htype' : c.type = .extensions := congrArg NodeKey.type hk
      rw [hn, htype] at htype'
      cases htype'
  | tail _ hstep =>
      obtain ⟨m, hm, hparent⟩ := hstep
      rw [hn, Option.some.injEq] at hm
      subst hm
      obtain ⟨q, hq⟩ := Assoc.exists_get?_of_mem_keys (hf.parents hn hparent)
      have hseat := ha.above hn (htype ▸ trivial) hparent hq
      rw [htype] at hseat
      cases hseat

/-- The rows outside of the extensions of a project stay as they are, and are outside still. -/
structure Retains (i p : String) (t t' : Tables) : Prop where
  /-- A node outside. -/
  node : ∀ {j n}, t.node? j = some n → ¬ t.InExtensions i p j →
    t'.node? j = some n ∧ ¬ t'.InExtensions i p j
  /-- An edge between nodes outside. -/
  edge : ∀ {j e}, Assoc.get? j t.edges = some e → ¬ t.InExtensions i p e.source →
    ¬ t.InExtensions i p e.target → Assoc.get? j t'.edges = some e
  /-- A record of a node outside. -/
  record : ∀ {j r}, Assoc.get? j t.records = some r → ¬ t.InExtensions i p r.nodeId →
    Assoc.get? j t'.records = some r

theorem Retains.refl (i p : String) (t : Tables) : t.Retains i p t :=
  ⟨fun hn hj => ⟨hn, hj⟩, fun he _ _ => he, fun hr _ => hr⟩

/-- A node that was there is below what it was below, where the nodes keep their parents. -/
theorem reflTransGen_of_old (hf : t.WellFormed)
    (hkeep : ∀ {j n}, t.node? j = some n → ∃ n', t'.node? j = some n' ∧ n'.parent = n.parent) {a j : String}
    (hj : j ∈ keys t.nodes) (h : ReflTransGen t'.IsParent a j) :
    a ∈ keys t.nodes ∧ ReflTransGen t.IsParent a j := by
  induction h with
  | refl => exact ⟨hj, .refl⟩
  | tail _ hstep ih =>
      obtain ⟨m, hm⟩ := Assoc.exists_get?_of_mem_keys hj
      obtain ⟨m', hm', hparent⟩ := hkeep hm
      obtain ⟨m'', hm'', hp⟩ := hstep
      rw [hm', Option.some.injEq] at hm''
      rw [← hm'', hparent] at hp
      obtain ⟨ha, hbelow⟩ := ih (hf.parents hm hp)
      exact ⟨ha, .tail hbelow ⟨m, hm, hp⟩⟩

/-- An edge whose ends are left is left. -/
theorem Clears.edge_of_left {gone loose : List String} (h : Clears t gone loose t') {j : String} {e : Edge}
    (he : Assoc.get? j t.edges = some e) (hs : e.source ∉ loose) (ht : e.target ∉ loose) :
    Assoc.get? j t'.edges = some e := by
  obtain ⟨es, rs, rfl, hes, -⟩ := h
  rw [without, get?_sparing, if_neg fun hj => (hes j hj e he).elim hs ht, he]

/-- A record whose node is left is left. -/
theorem Clears.record_of_left {gone loose : List String} (h : Clears t gone loose t') {j : String}
    {r : GenerationRecord} (hr : Assoc.get? j t.records = some r) (hn : r.nodeId ∉ loose) :
    Assoc.get? j t'.records = some r := by
  obtain ⟨es, rs, rfl, -, hrs⟩ := h
  rw [without, get?_sparing, if_neg fun hj => hn (hrs j hj r hr), hr]

end Tables

/-! ## One extension turned -/

namespace Registry

variable {t t' t₁ t₂ : Tables} {i p id : String} {c n : Node} {o : Option Node}

/-- The node of one extension of a project is turned into another one, or into none, and what is outside of
the extensions of this project is the same. -/
structure Turns (i p id : String) (o : Option Node) (t t' : Tables) : Prop where
  /-- The anchors are arranged. -/
  arranged : t'.Arranged
  /-- The nodes of the extensions. -/
  extension? : ∀ j q id', t'.extension? j q id' =
    if j = i ∧ q = p ∧ id' = id then o else t.extension? j q id'
  /-- What was outside is there. -/
  kept : t.Retains i p t'
  /-- What is outside was there. -/
  old : t'.Retains i p t

/-- Nothing is turned where there is no extension. -/
theorem Turns.refl (ha : t.Arranged) (h : t.extension? i p id = none) : Turns i p id none t t where
  arranged := ha
  extension? j q id' := by
    split
    · rename_i hk
      obtain ⟨rfl, rfl, rfl⟩ := hk
      exact h
    · rfl
  kept := .refl i p t
  old := .refl i p t

/-- The container of a project is put in, and an extension below it. -/
structure Fills (i p id : String) (c n : Node) (t t₁ t' : Tables) : Prop where
  /-- The container is put in. -/
  container : t.Puts c t₁
  /-- The extension is put in. -/
  extension : t₁.Puts n t'
  /-- The address of the container. -/
  containerKey : c.key = ⟨some p, i, .extensions, containerName⟩
  /-- The address of the extension. -/
  extensionKey : n.key = ⟨some c.id, i, .extension, id⟩

namespace Fills

variable (h : Fills i p id c n t t₁ t') (hf : t.WellFormed) (hf₁ : t₁.WellFormed) (hf' : t'.WellFormed)
include h

/-- A container that was there had the same identifier. -/
theorem container_old (hf : t.WellFormed) (hc : c.id ∈ keys t.nodes) :
    ∃ c₀, t.container? i p = some c₀ ∧ c₀.id = c.id := by
  obtain ⟨c₀, hc₀⟩ := Assoc.exists_get?_of_mem_keys hc
  have hid : c₀.id = c.id := hf.nodes.owned hc₀
  have hkey : c₀.key = _ := (h.container.key hc₀).trans h.containerKey
  exact ⟨c₀, (Tables.findNode?_eq_some hf).mpr ⟨hid ▸ hc₀, hkey⟩, hid⟩

/-- The extension is another node than the container. -/
theorem id_ne : n.id ≠ c.id := by
  intro hid
  have hc : t₁.node? n.id = some c := by rw [h.container.node?, if_pos hid]
  have hkey := h.extension.key hc
  rw [h.containerKey, h.extensionKey] at hkey
  exact NodeType.noConfusion (congrArg NodeKey.type hkey)

theorem node? (j : String) : t'.node? j =
    if j = n.id then some n else if j = c.id then some c else t.node? j := by
  rw [h.extension.node?, h.container.node?]

/-- An extension that was there is below the container. -/
theorem extension_old {m : Node} (hm : t.node? n.id = some m) : m.key = n.key := by
  refine h.extension.key ?_
  rw [h.container.node?, if_neg h.id_ne, hm]

/-- The nodes keep their keys. -/
theorem keeps {j : String} {m : Node} (hm : t.node? j = some m) :
    ∃ m', t'.node? j = some m' ∧ m'.key = m.key := by
  rw [h.node?]
  split
  · rename_i hj
    exact ⟨n, rfl, (h.extension_old (hj ▸ hm)).symm⟩
  · split
    · rename_i hj
      exact ⟨c, rfl, (h.container.key (hj ▸ hm)).symm⟩
    · exact ⟨m, hm, rfl⟩

include hf hf₁ hf'

theorem container? (j q : String) :
    t'.container? j q = if j = i ∧ q = p then some c else t.container? j q := by
  have hne : (⟨some q, j, .extensions, containerName⟩ : NodeKey) ≠ n.key :=
    ne_of_apply_ne NodeKey.type fun heq =>
      NodeType.noConfusion (heq.trans (congrArg NodeKey.type h.extensionKey))
  rw [Tables.container?, h.extension.findNode? hf₁ hf', if_neg hne, h.container.findNode? hf hf₁,
    h.containerKey]
  simp only [NodeKey.mk.injEq, Option.some.injEq, and_true, @and_comm (q = p)]
  rfl

/-- What is below a container is found by its address. -/
theorem below (a j id' : String) : t'.findNode? ⟨some a, j, .extension, id'⟩ =
    if a = c.id ∧ j = i ∧ id' = id then some n else t.findNode? ⟨some a, j, .extension, id'⟩ := by
  have hne : (⟨some a, j, .extension, id'⟩ : NodeKey) ≠ c.key :=
    ne_of_apply_ne NodeKey.type fun heq =>
      NodeType.noConfusion (heq.trans (congrArg NodeKey.type h.containerKey))
  rw [h.extension.findNode? hf₁ hf', h.container.findNode? hf hf₁, if_neg hne, h.extensionKey]
  simp only [NodeKey.mk.injEq, Option.some.injEq, true_and]

theorem extension? (hold : ∀ c₀, t.container? i p = some c₀ → c₀.id = c.id) (j q id' : String) :
    t'.extension? j q id' = if j = i ∧ q = p ∧ id' = id then some n else t.extension? j q id' := by
  by_cases hjq : j = i ∧ q = p
  · obtain ⟨rfl, rfl⟩ := hjq
    rw [Tables.extension?, h.container? hf hf₁ hf', if_pos ⟨rfl, rfl⟩, Option.bind_some, h.below hf hf₁ hf']
    simp only [true_and]
    refine ite_congr rfl (fun _ => rfl) fun _ => ?_
    cases hc : t.container? j q with
    | some c₀ => rw [Tables.extension?, hc, Option.bind_some, hold c₀ hc]
    | none =>
        rw [Tables.extension?, hc, Option.bind_none, Option.eq_none_iff_forall_ne_some]
        intro m hm
        obtain ⟨hm, hk⟩ := (Tables.findNode?_eq_some hf).mp hm
        obtain ⟨c₀, hc₀, -⟩ := h.container_old hf (hf.parents hm (congrArg NodeKey.parent hk))
        rw [hc] at hc₀
        cases hc₀
  · rw [Tables.extension?, h.container? hf hf₁ hf', if_neg hjq, if_neg fun hk => hjq ⟨hk.1, hk.2.1⟩,
      Tables.extension?]
    refine Option.bind_congr fun c' hc' => ?_
    obtain ⟨hc', hk⟩ := (Tables.findNode?_eq_some hf).mp hc'
    rw [h.below hf hf₁ hf', if_neg]
    rintro ⟨hid, -⟩
    have hkey := h.container.key (hid ▸ hc')
    rw [hk, h.containerKey] at hkey
    exact hjq ⟨congrArg NodeKey.instanceId hkey, Option.some.inj (congrArg NodeKey.parent hkey)⟩

/-- What is outside of the extensions of the project stays. -/
theorem kept : t.Retains i p t' where
  node {j m} hm hj := by
    have hne : j ≠ n.id := by
      rintro rfl
      have hparent : m.parent = some c.id :=
        congrArg NodeKey.parent ((h.extension_old hm).trans h.extensionKey)
      obtain ⟨c₀, hc₀, hid⟩ := h.container_old hf (hf.parents hm hparent)
      exact hj ⟨c₀, hc₀, .single ⟨m, hm, hid.symm ▸ hparent⟩⟩
    have hne' : j ≠ c.id := by
      rintro rfl
      obtain ⟨c₀, hc₀, hid⟩ := h.container_old hf (Assoc.mem_keys_of_get? hm)
      exact hj ⟨c₀, hc₀, hid ▸ .refl⟩
    refine ⟨by rw [h.node?, if_neg hne, if_neg hne', hm], ?_⟩
    rintro ⟨c', hc', hbelow⟩
    rw [h.container? hf hf₁ hf', if_pos ⟨rfl, rfl⟩, Option.some.injEq] at hc'
    subst hc'
    obtain ⟨hc, hbelow⟩ := Tables.reflTransGen_of_old hf (fun hm => by
      obtain ⟨m', hm', hk⟩ := h.keeps hm
      exact ⟨m', hm', congrArg NodeKey.parent hk⟩) (Assoc.mem_keys_of_get? hm) hbelow
    obtain ⟨c₀, hc₀, hid⟩ := h.container_old hf hc
    exact hj ⟨c₀, hc₀, hid ▸ hbelow⟩
  edge he _ _ := by
    rw [h.extension.edges, h.container.edges]
    exact he
  record hr _ := by
    rw [h.extension.records, h.container.records]
    exact hr

/-- What is outside of the extensions of the project was there. -/
theorem old (hold : ∀ c₀, t.container? i p = some c₀ → c₀.id = c.id) : t'.Retains i p t where
  node {j m} hm hj := by
    have hc : t'.container? i p = some c := by
      rw [h.container? hf hf₁ hf', if_pos ⟨rfl, rfl⟩]
    have hne : j ≠ n.id := by
      rintro rfl
      refine hj ⟨c, hc, .single ⟨n, ?_, congrArg NodeKey.parent h.extensionKey⟩⟩
      rw [h.node?, if_pos rfl]
    have hne' : j ≠ c.id := by
      rintro rfl
      exact hj ⟨c, hc, .refl⟩
    rw [h.node?, if_neg hne, if_neg hne'] at hm
    refine ⟨hm, ?_⟩
    rintro ⟨c₀, hc₀, hbelow⟩
    refine hj ⟨c, hc, hold c₀ hc₀ ▸ ?_⟩
    refine ReflTransGen.mono (fun a b hab => ?_) _ _ hbelow
    obtain ⟨m, hm, hparent⟩ := hab
    obtain ⟨m', hm', hk⟩ := h.keeps hm
    exact ⟨m', hm', (congrArg NodeKey.parent hk).trans hparent⟩
  edge he _ _ := by
    rw [h.extension.edges, h.container.edges] at he
    exact he
  record hr _ := by
    rw [h.extension.records, h.container.records] at hr
    exact hr

end Fills

section

variable (hf : t.WellFormed) (ha : t.Arranged)
include hf ha

/-- An extension is put below the container of a stored project. -/
theorem turns_of_found {q n₀ : Node} (hp : t.node? p = some q) (htype : q.type = .project)
    (hc : Graph.Found t ⟨some p, i, .extensions, containerName⟩ none c t₁)
    (hn : Graph.Found t₁ ⟨some c.id, i, .extension, id⟩ none n₀ t₂) (hid : n.id = n₀.id)
    (hk : n.key = n₀.key) : Turns i p id (some n) t (t₂.putNode n) := by
  have hf₁ := hc.wellFormed hf
  have hf₂ := hn.wellFormed hf₁
  obtain ⟨hcstored, hckey⟩ := hc.node? hf
  obtain ⟨hnstored, hnkey⟩ := hn.node? hf₁
  have hf' : (t₂.putNode n).WellFormed := Tables.wellFormed_putNode hf₂ (hid ▸ hnstored) hk
  have ha₁ : t₁.Arranged := by
    refine hc.arranged hf ha (fun _ hparent hq => ?_) (fun h => ?_) fun h => ?_
    · obtain rfl := Option.some.inj hparent
      rw [hp, Option.some.injEq] at hq
      rw [← hq, htype]
      rfl
    · cases h
    · rcases h with h | h <;> cases h
  have ha₂ : t₂.Arranged := by
    have hcontainer {a m} (hparent : some c.id = some a) (hm : t₁.node? a = some m) :
        m.type = .extensions ∧ m.instanceId = i := by
      obtain rfl := Option.some.inj hparent
      rw [hcstored, Option.some.injEq] at hm
      rw [← hm]
      exact ⟨congrArg NodeKey.type hckey, congrArg NodeKey.instanceId hckey⟩
    refine hn.arranged hf₁ ha₁ (fun _ hparent hm => ?_) (fun _ hparent hm => ?_) fun h => ?_
    · rw [(hcontainer hparent hm).1]
      rfl
    · exact (hcontainer hparent hm).2.symm
    · rcases h with h | h <;> cases h
  have hfills : Fills i p id c n t t₁ (t₂.putNode n) :=
    ⟨.of_found hc hf, (Tables.Puts.of_found hn hf₁).again hid hk, hckey, hk.trans hnkey⟩
  have hold (c₀ : Node) (hc₀ : t.container? i p = some c₀) : c₀.id = c.id := by
    rw [(hc.eq_old hf hc₀).1]
  refine ⟨ha₂.back fun {j m} hm => ?_, hfills.extension? hf hf₁ hf' hold, hfills.kept hf hf₁ hf',
    hfills.old hf hf₁ hf' hold⟩
  rw [Tables.node?_putNode] at hm
  split at hm
  · rename_i hj
    cases hm
    refine ⟨n₀, hj ▸ hid ▸ hnstored, hk.symm, fun h => ?_⟩
    have htype : n₀.type = .extension := congrArg NodeKey.type hnkey
    rcases h with h | h <;> (rw [htype] at h; cases h)
  · exact ⟨m, hm, rfl, fun _ => .refl m⟩

/-- No anchor is below an extension. -/
theorem not_anchor_of_below {m : Node} {j : String} (hn : t.node? n.id = some n) (htype : n.type = .extension)
    (hbelow : TransGen t.IsParent n.id j) (hm : t.node? j = some m) : ¬ m.type.IsAnchor := by
  induction hbelow generalizing m with
  | single hstep =>
      intro hanchor
      obtain ⟨m', hm', hparent⟩ := hstep
      rw [hm, Option.some.injEq] at hm'
      have hseat := ha.above hm hanchor (hm' ▸ hparent) hn
      rw [htype] at hseat
      cases hm' : m.type <;> (rw [hm'] at hseat; cases hseat)
  | tail _ hstep ih =>
      intro hanchor
      obtain ⟨m', hm', hparent⟩ := hstep
      rw [hm, Option.some.injEq] at hm'
      rw [← hm'] at hparent
      obtain ⟨q, hq⟩ := Assoc.exists_get?_of_mem_keys (hf.parents hm hparent)
      exact ih hq (NodeType.isAnchor_of_seat? (ha.above hm hanchor hparent hq))

section

variable {gone : List String} (h : t.Razes [n.id] gone t')
include h

omit hf ha in
/-- What is gone is the node with all that is below it. -/
theorem mem_gone_iff (j : String) : j ∈ gone ↔ ReflTransGen t.IsParent n.id j := by
  rw [h.mem_gone, Relation.reflTransGen_iff_eq_or_transGen]
  simp

/-- No other node of the registry is gone. -/
theorem findNode?_of_razes (hf' : t'.WellFormed) (hn : t.node? n.id = some n) (htype : n.type = .extension)
    {k : NodeKey} (hk : k.type.IsExtension) : t'.findNode? k = if k = n.key then none else t.findNode? k := by
  have hgone {m : Node} (hm : t.node? m.id = some m) (hmk : m.key = k) : m.id ∈ gone ↔ k = n.key := by
    rw [mem_gone_iff h, Relation.reflTransGen_iff_eq_or_transGen]
    constructor
    · rintro (hid | hbelow)
      · rw [hid, hn, Option.some.injEq] at hm
        rw [← hmk, hm]
      · subst hmk
        exact absurd hk.isAnchor (not_anchor_of_below hf ha hn htype hbelow hm)
    · rintro rfl
      have hfound := (Tables.findNode?_eq_some hf).mpr ⟨hm, hmk⟩
      rw [(Tables.findNode?_eq_some hf).mpr ⟨hn, rfl⟩, Option.some.injEq] at hfound
      exact .inl (congrArg Node.id hfound.symm)
  split
  · rename_i hkn
    rw [Option.eq_none_iff_forall_ne_some]
    intro m hm
    obtain ⟨hm, hmk⟩ := (Tables.findNode?_eq_some hf').mp hm
    obtain ⟨hg, hm⟩ := h.clears.node?_of_some hm
    exact hg ((hgone hm hmk).mpr hkn)
  · rename_i hkn
    refine Option.ext fun m => ?_
    rw [Tables.findNode?_eq_some hf', Tables.findNode?_eq_some hf]
    refine and_congr_left fun hmk => ⟨fun hm => (h.clears.node?_of_some hm).2, fun hm => ?_⟩
    rw [h.clears.node?_eq, if_neg fun hg => hkn ((hgone hm hmk).mp hg), hm]

/-- The containers stay. -/
theorem container?_of_razes (hf' : t'.WellFormed) (hn : t.node? n.id = some n) (htype : n.type = .extension)
    (j q : String) : t'.container? j q = t.container? j q := by
  have hne : (⟨some q, j, .extensions, containerName⟩ : NodeKey) ≠ n.key :=
    ne_of_apply_ne NodeKey.type fun heq => NodeType.noConfusion (heq.trans htype)
  have hfound := findNode?_of_razes hf ha h hf' hn htype (k := ⟨some q, j, .extensions, containerName⟩) trivial
  exact hfound.trans (if_neg hne)

variable (hf' : t'.WellFormed) (hn : t.extension? i p id = some n)
include hn

omit ha in
/-- What is gone is among the extensions of the project. -/
theorem inExtensions_of_gone {j : String} (hj : j ∈ gone) : t.InExtensions i p j := by
  obtain ⟨c, hc, hstored, hkey⟩ := (Tables.extension?_eq_some hf).mp hn
  exact ⟨c, hc, .head ⟨n, hstored, congrArg NodeKey.parent hkey⟩ ((mem_gone_iff h j).mp hj)⟩

include hf'

/-- The extension is gone, and no other one. -/
theorem extension?_of_razes (j q id' : String) :
    t'.extension? j q id' = if j = i ∧ q = p ∧ id' = id then none else t.extension? j q id' := by
  obtain ⟨c, hc, hstored, hkey⟩ := (Tables.extension?_eq_some hf).mp hn
  have htype : n.type = .extension := congrArg NodeKey.type hkey
  rw [Tables.extension?, Tables.extension?, container?_of_razes hf ha h hf' hstored htype]
  cases hc' : t.container? j q with
  | none => split <;> rfl
  | some c' =>
      have hiff : (⟨some c'.id, j, .extension, id'⟩ : NodeKey) = n.key ↔ j = i ∧ q = p ∧ id' = id := by
        rw [hkey]
        constructor
        · intro hk
          have hid : c'.id = c.id := Option.some.inj (congrArg NodeKey.parent hk)
          have hkeys := Tables.container?_inj hf hc' hc hid
          exact ⟨hkeys.1, hkeys.2, congrArg NodeKey.name hk⟩
        · rintro ⟨rfl, rfl, rfl⟩
          rw [hc, Option.some.injEq] at hc'
          rw [hc']
      rw [Option.bind_some, Option.bind_some,
        findNode?_of_razes hf ha h hf' hstored htype (k := ⟨some c'.id, j, .extension, id'⟩) trivial]
      exact ite_congr (propext hiff) (fun _ => rfl) fun _ => rfl

/-- What is outside of the extensions of the project is left. -/
theorem kept_of_razes : t.Retains i p t' := by
  obtain ⟨_, _, hstored, hkey⟩ := (Tables.extension?_eq_some hf).mp hn
  have hcontainer := container?_of_razes hf ha h hf' hstored (congrArg NodeKey.type hkey)
  have hstays {j : String} (hj : ¬ t.InExtensions i p j) : j ∉ gone :=
    fun hg => hj (inExtensions_of_gone hf h hn hg)
  have hmono {j : String} : t'.InExtensions i p j → t.InExtensions i p j := by
    rintro ⟨c', hc', hbelow⟩
    refine ⟨c', hcontainer .. ▸ hc', ReflTransGen.mono (fun a b hab => ?_) _ _ hbelow⟩
    obtain ⟨m, hm, hparent⟩ := hab
    exact ⟨m, (h.clears.node?_of_some hm).2, hparent⟩
  refine ⟨fun {j m} hm hj => ⟨?_, fun hj' => hj (hmono hj')⟩, fun he hs ht => ?_, fun hr hj => ?_⟩
  · rw [h.clears.node?_eq, if_neg (hstays hj), hm]
  · exact h.clears.edge_of_left he (hstays hs) (hstays ht)
  · exact h.clears.record_of_left hr (hstays hj)

/-- What is outside of the extensions of the project was there. -/
theorem old_of_razes : t'.Retains i p t := by
  obtain ⟨_, _, hstored, hkey⟩ := (Tables.extension?_eq_some hf).mp hn
  have hcontainer := container?_of_razes hf ha h hf' hstored (congrArg NodeKey.type hkey)
  refine ⟨fun {j m} hm hj => ⟨(h.clears.node?_of_some hm).2, ?_⟩,
    fun he _ _ => h.clears.edge_of_some he, fun hr _ => h.clears.record_of_some hr⟩
  rintro ⟨c', hc', hbelow⟩
  refine hj ⟨c', hcontainer .. ▸ hc', ?_⟩
  rw [Relation.reflTransGen_iff_eq_or_transGen] at hbelow ⊢
  exact hbelow.imp_right (h.clears.transGen_of_left hf' (Assoc.mem_keys_of_get? hm))

/-- An extension is taken away, and all that is below it. -/
theorem turns_of_razes : Turns i p id none t t' where
  arranged := ha.mono fun hm => (h.clears.node?_of_some hm).2
  extension? := extension?_of_razes hf ha h hf' hn
  kept := kept_of_razes hf ha h hf' hn
  old := old_of_razes hf ha h hf' hn

end

end

/-! ## Installing and removing -/

variable {w : Workspace} {project : Node} {e : ExtensionSpec}

/-- The registry leaves a graph at rest at rest. -/
theorem atRest_install (h : w.AtRest) (project : Node) (e : ExtensionSpec) :
    ((install project e).after w).AtRest :=
  h.way (((safe_install (R := w.clearing) (fun _ _ => trivial) (fun _ _ _ => trivial) project e).runs w
    trivial).way h.sound)

theorem atRest_remove (h : w.AtRest) (project : Node) (id : String) :
    ((remove project id).after w).AtRest :=
  h.way (((safe_remove (R := w.clearing) (fun {_ n} hI _ _ => (Graph.safe_cascadeDelete (fun _ => trivial)
    (fun _ => trivial) (fun _ => trivial) n true).runs _ hI) project id).runs w trivial).way h.sound)

theorem instanceId_install (hw : w.Sound) (project : Node) (e : ExtensionSpec) :
    ((install project e).after w).graph.instanceId = w.graph.instanceId :=
  (((safe_install (R := w.clearing) (fun _ _ => trivial) (fun _ _ _ => trivial) project e).runs w
    trivial).after hw).instanceId_eq

theorem exactMembers_toJson (e : ExtensionSpec) : Json.ExactMembers (e.toJson.members?.getD []) := by
  have hhooks : Json.ExactItems (e.hooks.map Json.str) := by
    induction e.hooks with
    | nil => trivial
    | cons s l ih => exact ⟨trivial, ih⟩
  exact ⟨trivial, trivial, trivial, Json.exact_ofTexts e.skills, hhooks, trivial⟩

/-- An extension that is installed is put below the container of its project. -/
theorem ends_install (hp : project.id ∈ keys w.tables.nodes) (he : e.id ≠ "") :
    Ends w (install project e)
      (fun n w' => ∃ c n₀ t₁ t₂,
        Graph.Found w.tables ⟨some project.id, w.graph.instanceId, .extensions, containerName⟩ none c t₁ ∧
        Graph.Found t₁ ⟨some c.id, w.graph.instanceId, .extension, e.id⟩ none n₀ t₂ ∧
        Graph.Revised .keep (.put e.toJson.members?) .keep n₀ n ∧ w'.tables = t₂.putNode n)
      fun w' => ¬ w'.Writable := by
  refine (Ends.transaction_sure (fun hr hQ => ?_) fun w₁ hw₁ hr₁ hd₁ => ?_).weaken (fun _ _ _ h => h)
    fun _ _ h => h.2.1
  · obtain ⟨c, n₀, t₁, t₂, hc, hn, hrevised, ht⟩ := hQ
    exact ⟨c, n₀, t₁, t₂, hc, hn, hrevised, hr.tables_of_quiet.trans ht⟩
  · -- the document is not written before the end of the transaction
    have hd₁ : w₁.graph.depth ≠ 0 := hd₁ ▸ Nat.succ_ne_zero _
    have ht₁ : w₁.tables = w.tables := hr₁.tables_of_quiet
    have hi₁ : w₁.graph.instanceId = w.graph.instanceId := (hr₁.of_quiet (A := Event.Any)).instanceId_eq
    have hcontainer : Ends w₁ (Graph.getOrCreate (some project) .extensions containerName none) _ _ :=
      Graph.ends_getOrCreate (fun q hq => by
        cases hq
        exact ht₁ ▸ hp) (by decide) trivial
    refine (hcontainer.never fun _ h => hd₁ h.1).bind fun c w₂ hw₂ k₂ hc => ?_
    have hd₂ : w₂.graph.depth ≠ 0 := k₂.depth ▸ hd₁
    obtain ⟨hcstored, -⟩ := hc.node? hw₁.wellFormed
    have hextension : Ends w₂ (Graph.getOrCreate (some c) .extension e.id none) _ _ :=
      Graph.ends_getOrCreate (fun q hq => by
        cases hq
        exact Assoc.mem_keys_of_get? hcstored) he trivial
    refine (hextension.never fun _ h => hd₂ h.1).bind fun n₀ w₃ hw₃ k₃ hn => ?_
    have hd₃ : w₃.graph.depth ≠ 0 := k₃.depth ▸ hd₂
    obtain ⟨hnstored, -⟩ := hn.node? hw₂.wellFormed
    have hi₂ : w₂.graph.instanceId = w.graph.instanceId := k₂.reach.instanceId_eq.trans hi₁
    have hset : Ends w₃ (Graph.setContent n₀ .keep (.put e.toJson.members?) .keep) _ _ :=
      Graph.ends_setContent hnstored (exactMembers_toJson e)
    rw [ht₁, hi₁] at hc
    rw [hi₂] at hn
    refine (hset.never fun _ h => hd₃ h.1).weaken (fun n w' _ h => ?_) fun _ _ h => h
    exact ⟨c, n₀, _, _, hc, hn, h.1, h.2⟩

/-- An extension is installed in a graph at rest. -/
theorem install_run (h : w.AtRest) (ha : w.tables.Arranged) {q : Node}
    (hp : w.tables.node? project.id = some q) (htype : q.type = .project) (he : e.Valid) :
    ∃ n w', (install project e).run w = .ok n w' ∧ Bears n e ∧
      Turns w.graph.instanceId project.id e.id (some n) w.tables w'.tables := by
  have hend := ends_install (Assoc.mem_keys_of_get? hp) he.id h.sound
  have hrest := atRest_install h project e
  cases hrun : (install project e).run w with
  | error x w' =>
      rw [Op.after, hrun] at hrest
      rw [hrun] at hend
      exact absurd hrest.writable hend.2
  | ok n w' =>
      rw [hrun] at hend
      obtain ⟨-, c, n₀, t₁, t₂, hc, hn, hrevised, ht⟩ := hend
      refine ⟨n, w', rfl, ⟨he, fun _ => ?_⟩, ?_⟩
      · rw [Node.members, hrevised.json]
        rfl
      · rw [ht]
        exact turns_of_found h.sound.wellFormed ha hp htype hc hn hrevised.id hrevised.key

section

variable {id : String}

/-- Nothing is removed where there is no extension. -/
theorem remove_absent (h : w.tables.extension? w.graph.instanceId project.id id = none) :
    (remove project id).run w = .ok false w := by
  rw [remove, bind_ok (container_run w project)]
  cases hc : w.tables.container? w.graph.instanceId project.id with
  | none => rfl
  | some c =>
      rw [Tables.extension?, hc, Option.bind_some] at h
      have hchild' : (Graph.child? (some c) .extension id).run w = .ok none w := by
        rw [← h]
        rfl
      dsimp only
      rw [bind_ok hchild']
      rfl

/-- An extension is removed with all that is below its node. -/
theorem remove_present {n : Node} (h : w.tables.extension? w.graph.instanceId project.id id = some n) :
    (remove project id).run w = (Graph.cascadeDelete n true >>= fun _ => pure true).run w := by
  obtain ⟨c, hc, hn⟩ := Option.bind_eq_some_iff.mp h
  have hchild' : (Graph.child? (some c) .extension id).run w = .ok (some n) w := by
    rw [← hn]
    rfl
  rw [remove, bind_ok (container_run w project), hc]
  dsimp only
  rw [bind_ok hchild']

/-- An extension is removed from a graph at rest, with the answer whether there was one. -/
theorem remove_run (h : w.AtRest) (hu : w.tables.Universal) (ha : w.tables.Arranged) (project : Node)
    (id : String) : ∃ w', (remove project id).run w =
        .ok (w.tables.extension? w.graph.instanceId project.id id).isSome w' ∧
      Turns w.graph.instanceId project.id id none w.tables w'.tables := by
  cases hext : w.tables.extension? w.graph.instanceId project.id id with
  | none => exact ⟨w, remove_absent hext, .refl ha hext⟩
  | some n =>
      obtain ⟨-, -, hn, -⟩ := (Tables.extension?_eq_some h.sound.wellFormed).mp hext
      have hend := Graph.ends_cascadeDelete true hu (Assoc.mem_keys_of_get? hn) h.sound
      have hrest := atRest_remove h project id
      cases hrun : (Graph.cascadeDelete n true).run w with
      | error x w' =>
          rw [hrun] at hend
          rw [Op.after, remove_present hext, bind_error hrun] at hrest
          exact absurd hrest.writable hend.2.2.1
      | ok k w' =>
          rw [hrun] at hend
          obtain ⟨hkeeps, gone, hrazes, -⟩ := hend
          refine ⟨w', (remove_present hext).trans (bind_ok hrun), ?_⟩
          exact turns_of_razes h.sound.wellFormed ha hrazes (hkeeps.reach.sound h.sound).wellFormed hext

end

end Registry

end IntentBuild
