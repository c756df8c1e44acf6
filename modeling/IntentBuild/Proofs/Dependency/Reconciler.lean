import IntentBuild.Proofs.Dependency.Ledger
import IntentBuild.Proofs.Graph.Outcome

/-!
# What the operations on the manifest do

Applying deltas and reconciling keep the ledger of a project balanced, whether they succeed or
not, and reconciling balances it after files were deleted.
-/

namespace IntentBuild.Manifest

open Op
open Assoc (keys)

variable {p : Node} {w : Workspace}

/-! ## The manifest -/

theorem address_not_isFile (p : Node) (i : String) : ¬ (address p i).type.IsFile := by
  rintro (h | h | h) <;> cases h

/-- The manifest is found or made. -/
theorem ends_node (hp : p.id ∈ keys w.tables.nodes) :
    Ends w (node p)
      (fun b w' => Graph.Found w.tables (address p w.graph.instanceId)
        (some [("deps", .obj [])]) b w'.tables)
      fun w' => w.graph.depth = 0 ∧ ∃ b, Graph.Found w.tables (address p w.graph.instanceId)
        (some [("deps", .obj [])]) b w'.tables := by
  have hexact : Json.ExactMembers [("deps", .obj [])] := ⟨⟨⟩, ⟨⟩⟩
  have hget : Ends w (node p) _ _ :=
    Graph.ends_getOrCreate (fun q hq => by cases hq; exact hp) (by decide) hexact
  exact hget.weaken (fun _ _ _ h => h) fun _ _ h => ⟨h.1, h.2.2⟩

/-! ## Versions behind edges -/

section

variable {b : Node} {k : NodeKey}

/-- The version behind an edge. -/
theorem versionOf_run {e : Edge}
    (h : ∀ n, w.tables.node? e.source = some n → ∃ m, textsAt "deps" n = .ok m) :
    (versionOf e).run w = .ok (versionIn w.tables e.source e.name) w := by
  have hfind : (Graph.find? e.source).run w = .ok (w.tables.node? e.source) w := rfl
  rw [versionOf, bind_ok hfind, versionIn]
  cases hn : w.tables.node? e.source with
  | none => rfl
  | some n =>
      obtain ⟨m, hm⟩ := h n hn
      simp only [declaredVersion?_eq hm, hm]
      rfl

theorem edges_run : (edges b).run w = .ok (w.tables.edgesTo b.id (some .dependsOn)) w := rfl

/-- The maps behind some edges can be read. -/
def LegibleBehind (t : Tables) (l : List Edge) : Prop :=
  ∀ e ∈ l, ∀ n, t.node? e.source = some n → ∃ m, textsAt "deps" n = .ok m

/-- Where the entries agree, the maps behind all edges can be read. -/
theorem Entries.legibleBehind (h : Entries p k w.tables) (hb : w.tables.findNode? k = some b) :
    LegibleBehind w.tables (w.tables.edgesTo b.id (some .dependsOn)) := by
  intro e he n hn
  obtain ⟨n', hn', hid⟩ := h.file hb (List.mem_map.mpr ⟨e, he, rfl⟩)
  obtain ⟨m, hm⟩ := h.sheet hn'
  rw [← hid, hn'.stored, Option.some.injEq] at hn
  exact ⟨m, hn ▸ hm.texts⟩

/-- The fold over edges gives the union of what stands behind them. -/
theorem raise_run {l : List Edge} (hl : LegibleBehind w.tables l) (u : Dependencies) :
    (l.foldlM (fun u e => return raise u e.name (← versionOf e) : Dependencies → Edge → Op _) u).run
        w =
      .ok (raiseAll u (said (versionIn w.tables) (l.map fun e => (e.source, e.name)))) w := by
  rw [foldlM_eq (f := fun u e => raise u e.name (versionIn w.tables e.source e.name))]
  · rw [raiseAll, said, List.map_map, List.foldl_map]
    rfl
  · exact fun e he u => bind_ok (versionOf_run (hl e he))

/-- What is said about a name stands behind the pointers at it. -/
theorem saidOf_filter (ds : List (String × Option String)) (k : String) :
    saidOf (ds.filter fun d => d.1 == k) k = saidOf ds k := by
  rw [saidOf, List.filter_filter, saidOf]
  simp

/-- The edges with a name to a manifest. -/
def edgesAt (t : Tables) (b : Node) (name : String) : List Edge :=
  (t.edgesTo b.id (some .dependsOn)).filter fun e => e.name == name

theorem LegibleBehind.edgesAt (h : LegibleBehind w.tables (w.tables.edgesTo b.id (some .dependsOn)))
    (name : String) : LegibleBehind w.tables (edgesAt w.tables b name) :=
  fun e he => h e (List.mem_filter.mp he).1

/-- The highest version for a name. -/
theorem highest_run {name : String} (h : LegibleBehind w.tables (edgesAt w.tables b name)) :
    (highest b name).run w =
      .ok (best (saidOf (said (versionIn w.tables) (pointers w.tables b.id)) name)) w := by
  refine (bind_ok edges_run).trans ?_
  refine (bind_ok (raise_run h [])).trans ?_
  change EStateM.Result.ok _ w = _
  rw [get?_union]
  congr 2
  rw [← saidOf_filter (said _ (pointers w.tables b.id))]
  congr 1
  rw [said, said, pointers, List.map_map, List.map_map, List.filter_map]
  rfl

/-- Refreshing a name. -/
theorem refreshName_run {name : String} (h : LegibleBehind w.tables (edgesAt w.tables b name))
    (m : Dependencies) :
    (refreshName b m name).run w =
      .ok (refreshed (versionIn w.tables) (pointers w.tables b.id) m name) w := by
  refine (bind_ok (highest_run h)).trans ?_
  rw [refreshed]
  cases best (saidOf (said (versionIn w.tables) (pointers w.tables b.id)) name) <;> rfl

/-- What the files declare, once the manifest is there. -/
theorem declared_run {w' : Workspace} (hn : (node p).run w = .ok b w') (h : Entries p k w'.tables)
    (hb : w'.tables.findNode? k = some b) :
    (declared p).run w =
      .ok (union (versionIn w'.tables) (pointers w'.tables b.id)) w' := by
  refine (bind_ok hn).trans ((bind_ok edges_run).trans ?_)
  exact bind_ok (raise_run (h.legibleBehind hb) [])

end

/-! ## Handles of files -/

/-- A value that was read as a file of a project.  The file may have been deleted meanwhile. -/
structure FileHandle (p file : Node) (w : Workspace) : Prop where
  /-- The value was read. -/
  handle : Handle file w
  /-- It was a file. -/
  type : file.type.IsFile
  /-- If it is still there, it is below the project. -/
  below : ∀ {n}, w.tables.node? file.id = some n → FileOf w.tables p n

/-- Making the manifest leaves the handles of files alone. -/
theorem FileHandle.found {file b : Node} {w' : Workspace} {k : NodeKey} {json : Option Members}
    (h : FileHandle p file w) (hw : w.Sound) (hk : ¬ k.type.IsFile) (hr : Reach Event.Any w w')
    (hb : Graph.Found w.tables k json b w'.tables) : FileHandle p file w' := by
  refine ⟨h.handle.reach hr, h.type, fun {n} hn => ?_⟩
  have hnk := (h.handle.reach hr).key hn
  generalize w'.tables = t' at hb hn
  cases hb with
  | old => exact h.below hn
  | new hi hkey =>
      obtain ⟨rfl, hi, -, -⟩ := Tables.insertNode_eq_ok hi
      have hb : ¬ b.type.IsFile := fun hty => hk (hkey ▸ hty)
      refine (fileOf_setNode hw.wellFormed hi hb).mpr (h.below ?_)
      have hne : file.id ≠ b.id := fun he => by
        rw [he, Tables.node?, Tables.setNode, Assoc.get?_set_same, Option.some.injEq] at hn
        refine hb ?_
        rw [hn, show n.type = file.type from congrArg NodeKey.type hnk]
        exact h.type
      rwa [Tables.node?, Tables.setNode, Assoc.get?_set_other hne] at hn

/-! ## Applying deltas -/

section

variable {b f : Node}

/-- Links between two nodes may have come or gone, of one type and with some names. -/
structure Relinked (s b : String) (names : List String) (t t' : Tables) : Prop where
  /-- The nodes are as they were. -/
  nodes : t'.nodes = t.nodes
  /-- All other edges are as they were. -/
  edge : ∀ {e : Edge}, ¬ (e.source = s ∧ e.target = b ∧ e.type = .dependsOn ∧ e.name ∈ names) →
    (Assoc.get? e.id t'.edges = some e ↔ Assoc.get? e.id t.edges = some e)

namespace Relinked

variable {s b : String} {names names' : List String} {t t' t'' : Tables}

theorem refl : Relinked s b names t t := ⟨rfl, fun _ => Iff.rfl⟩

theorem trans (h : Relinked s b names t t') (h' : Relinked s b names t' t'') :
    Relinked s b names t t'' :=
  ⟨h'.nodes.trans h.nodes, fun he => (h'.edge he).trans (h.edge he)⟩

theorem mono (h : Relinked s b names t t') (hn : ∀ k ∈ names, k ∈ names') :
    Relinked s b names' t t' :=
  ⟨h.nodes, fun he => h.edge fun ⟨hs, hb, hty, hk⟩ => he ⟨hs, hb, hty, hn _ hk⟩⟩

theorem ends_of_key {e : Edge} {name : String} (hk : e.key = ⟨s, b, .dependsOn, name⟩) :
    e.source = s ∧ e.target = b ∧ e.type = .dependsOn ∧ e.name ∈ [name] :=
  ⟨congrArg EdgeKey.source hk, congrArg EdgeKey.target hk, congrArg EdgeKey.type hk,
    List.mem_singleton.mpr (congrArg EdgeKey.name hk)⟩

theorem of_linked {e : Edge} {name : String} (hk : e.key = ⟨s, b, .dependsOn, name⟩)
    (h : Graph.Linked t e t') : Relinked s b [name] t t' := by
  cases h with
  | old => exact refl
  | new h hi =>
      obtain ⟨rfl, -⟩ := Tables.insertEdge_eq_ok h
      refine ⟨rfl, fun {d} hd => ?_⟩
      by_cases hid : d.id = e.id
      · rw [hid, Tables.setEdge, Assoc.get?_set_same, Assoc.get?_eq_none_iff.mpr hi]
        refine ⟨fun he => ?_, fun he => by cases he⟩
        cases he
        exact absurd (ends_of_key hk) hd
      · exact iff_of_eq (congrArg (· = some d) (Assoc.get?_set_other hid ..))

theorem of_unlinked {e : Edge} {name : String} (hk : e.key = ⟨s, b, .dependsOn, name⟩)
    (he : Assoc.get? e.id t.edges = some e) : Relinked s b [name] t (t.without [] [e.id] []) := by
  refine ⟨sparing_nil .., fun {d} hd => ?_⟩
  change Assoc.get? d.id (sparing Prod.fst [e.id] t.edges) = _ ↔ _
  rw [← erase_eq_sparing]
  by_cases hid : d.id = e.id
  · rw [hid, Assoc.get?_erase_same, he]
    refine ⟨fun he => absurd he (by simp), fun he => ?_⟩
    cases he
    exact absurd (ends_of_key hk) hd
  · rw [Assoc.get?_erase_other hid]

end Relinked

/-- A delta links or unlinks, and leaves the nodes alone. -/
theorem ends_linkDelta (hd : w.graph.depth ≠ 0) (hf : f.id ∈ keys w.tables.nodes)
    (hb : b.id ∈ keys w.tables.nodes) (d : DependencyDelta) :
    Ends w (linkDelta f b d)
      (fun _ w' => Relinked f.id b.id [d.name] w.tables w'.tables ∧
        pointers w'.tables b.id = point f.id (pointers w.tables b.id) d)
      fun _ => False := by
  intro hw
  have hwf := hw.wellFormed
  unfold linkDelta point
  cases d.operation with
  | add =>
      refine Ends.bind ((Graph.ends_link hf hb).never fun _ h => hd h.1)
        (fun e w' _ _ h => .pure ?_) hw
      obtain ⟨hk, hl⟩ := h
      exact ⟨.of_linked hk hl, pointers_linked hwf hk hl⟩
  | remove =>
      refine Ends.bind (Graph.ends_unlink.never fun _ h => hd h.1)
        (fun _ w' _ _ h => .pure ?_) hw
      rcases h with ⟨hno, ht⟩ | ⟨e, he, hk, ht⟩
      · rw [ht]
        refine ⟨.refl, (List.filter_eq_self.mpr fun q hq => ?_).symm⟩
        simp only [ne_eq, decide_eq_true_eq]
        exact fun hqe => hno ((mem_pointers hwf).mp (hqe ▸ hq))
      · rw [ht]
        exact ⟨.of_unlinked hk he, pointers_unlinked hwf he hk⟩

/-- The links of all deltas. -/
theorem ends_linkDeltas (hd : w.graph.depth ≠ 0) (hf : f.id ∈ keys w.tables.nodes)
    (hb : b.id ∈ keys w.tables.nodes) (ds : List DependencyDelta) :
    Ends w (forIn ds PUnit.unit fun d _ => linkDelta f b d >>= fun _ => pure (.yield ⟨⟩))
      (fun _ w' => Relinked f.id b.id (ds.map DependencyDelta.name) w.tables w'.tables ∧
        pointers w'.tables b.id = ds.foldl (point f.id) (pointers w.tables b.id))
      fun _ => False := by
  refine Ends.forIn (I := fun ps w' =>
    Relinked f.id b.id (ds.map DependencyDelta.name) w.tables w'.tables ∧
      pointers w'.tables b.id = ps) (fun d hmem ps w' _ hk h => ?_) ⟨.refl, rfl⟩
  obtain ⟨hl, hps⟩ := h
  refine (ends_linkDelta (hk.depth ▸ hd) (hl.nodes ▸ hf) (hl.nodes ▸ hb) d).bind
    fun _ w'' _ _ h => .pure ?_
  refine ⟨rfl, hl.trans (h.1.mono fun k hk => ?_), hps ▸ h.2⟩
  rw [List.mem_singleton.mp hk]
  exact List.mem_map_of_mem hmem

/-- A file has taken on a map, and its links follow some deltas. -/
structure TakesOn (b f : Node) (ds : List DependencyDelta) (m : Dependencies) (t : Tables) (f' : Node)
    (t' : Tables) : Prop where
  /-- The file has the map, and keeps the rest. -/
  revised : Graph.Revised .keep (.put (some (withTexts "deps" f m))) .keep f f'
  /-- Other nodes are as they were. -/
  node : ∀ i, t'.node? i = if i = f'.id then some f' else t.node? i
  /-- Other edges are as they were. -/
  edge : ∀ {e : Edge}, ¬ (e.source = f.id ∧ e.target = b.id ∧ e.type = .dependsOn ∧
      e.name ∈ ds.map DependencyDelta.name) →
    (Assoc.get? e.id t'.edges = some e ↔ Assoc.get? e.id t.edges = some e)
  /-- The pointers at the manifest follow the deltas. -/
  pointers : pointers t' b.id = ds.foldl (point f.id) (pointers t b.id)

/-- Within a transaction a file takes on a map with the links of some deltas, and this cannot fail. -/
theorem ends_takeOn {β : Type} {k : Node → Op β} {Q : β → Workspace → Prop} {F : Workspace → Prop}
    (hd : w.graph.depth ≠ 0) (hf : w.tables.node? f.id = some f) (hb : b.id ∈ keys w.tables.nodes)
    {ds : List DependencyDelta} {m : Dependencies}
    (hk : ∀ f' w', w'.Sound → Keeps w w' → TakesOn b f ds m w.tables f' w'.tables → Ends w' (k f') Q F) :
    Ends w ((forIn ds PUnit.unit fun d _ => linkDelta f b d >>= fun _ => pure (.yield ⟨⟩)) >>= fun _ =>
      Graph.setJson f (withTexts "deps" f m) >>= k) Q F := by
  refine ((ends_linkDeltas hd (Assoc.mem_keys_of_get? hf) hb ds).never fun _ h => h).bind
    fun _ w₁ hw₁ hk₁ h₁ => ?_
  obtain ⟨hlinks, hps⟩ := h₁
  have hf₁ : w₁.tables.node? f.id = some f := by rwa [Tables.node?, hlinks.nodes]
  have hexact : Json.ExactMembers (withTexts "deps" f m) :=
    Json.exactMembers_set (hw₁.exact hf₁) (Json.exact_ofTexts _) _
  have hset : Ends w₁ (Graph.setJson f (withTexts "deps" f m)) _ _ := Graph.ends_setContent hf₁ hexact
  refine (hset.never fun _ h => (hk₁.depth ▸ hd : w₁.graph.depth ≠ 0) h.1).bind
    fun f' w₂ hw₂ hk₂ h₂ => ?_
  obtain ⟨hrevised, ht⟩ := h₂
  refine hk f' w₂ hw₂ (hk₁.trans hk₂) ⟨hrevised, fun i => ?_, fun he => ?_, ?_⟩
  · rw [ht, Tables.node?_putNode, Tables.node?, hlinks.nodes, Tables.node?]
  · rw [ht]
    exact hlinks.edge he
  · rw [← hps, ht]
    exact pointers_congr rfl _

/-- The map of a node after it was written. -/
theorem texts_of_revised {n n' : Node} {m : Dependencies}
    (hr : Graph.Revised .keep (.put (some (withTexts "deps" n m))) .keep b n') :
    texts? "deps" n' = some m :=
  texts?_of_set (show n'.members = Assoc.set "deps" (.ofTexts m) n.members by
    rw [Node.members, hr.json]
    rfl)

end

/-- The ledger of a project in a workspace. -/
def Balanced (p : Node) (w : Workspace) : Prop :=
  Ledger p (address p w.graph.instanceId) w.tables

theorem Balanced.of_quiet {w' : Workspace} (hr : Reach Event.None w w') (h : Balanced p w) :
    Balanced p w' := by
  rw [Balanced, hr.tables_of_quiet, hr.instanceId_eq]
  exact h

theorem FileHandle.of_quiet {file : Node} {w' : Workspace} (hr : Reach Event.None w w')
    (h : FileHandle p file w) : FileHandle p file w' := by
  refine ⟨h.handle.reach hr, h.type, fun hn => ?_⟩
  rw [hr.tables_of_quiet] at hn ⊢
  exact h.below hn

/-- About the names that no delta has, the pointers say what they said before. -/
theorem saidOf_deltas {t t' : Tables} {f f' : Node} {b k : String} {m m' : Dependencies}
    {ds : List DependencyDelta} (hps : pointers t' b = ds.foldl (point f.id) (pointers t b))
    (hput : ∀ i, t'.node? i = if i = f'.id then some f' else t.node? i) (hid : f'.id = f.id)
    (hf : t.node? f.id = some f) (hm : textsAt "deps" f = .ok m) (hm' : textsAt "deps" f' = .ok m')
    (hk : ∀ d ∈ ds, d.name ≠ k) (heq : Assoc.get? k m' = Assoc.get? k m) :
    saidOf (said (versionIn t') (pointers t' b)) k =
      saidOf (said (versionIn t) (pointers t b)) k := by
  rw [saidOf_said, saidOf_said, hps, filter_foldl_point hk]
  refine List.map_congr_left fun q _ => ?_
  by_cases hq : q.1 = f.id
  · have hf' : t'.node? f'.id = some f' := by rw [hput, if_pos rfl]
    rw [hq, versionIn_eq hf hm, ← hid, versionIn_eq hf' hm', heq]
  · rw [versionIn, versionIn, hput, if_neg (hid ▸ hq)]

/-- Writing the union to the manifest settles the ledger, also when the graph cannot be
written. -/
theorem ends_settle {k : NodeKey} {b : Node} (h : Entries p k w.tables) (hk : ¬ k.type.IsFile)
    (hb : w.tables.findNode? k = some b) {u : Dependencies}
    (hu : u = union (versionIn w.tables) (pointers w.tables b.id)) :
    Ends w (Graph.setJson b (withTexts "deps" b u)) (fun _ w' => Ledger p k w'.tables)
      fun w' => Ledger p k w'.tables := by
  intro hw
  have hbs := ((Tables.findNode?_eq_some hw.wellFormed).mp hb).1
  have settled {b' : Node} {w' : Workspace} (hk' : Keeps w w')
      (hr : Graph.Revised .keep (.put (some (withTexts "deps" b u))) .keep b b')
      (ht : w'.tables = w.tables.putNode b') : Ledger p k w'.tables := by
    have hwf := (hk'.reach.sound hw).wellFormed
    rw [ht] at hwf ⊢
    exact (h.settle (Tables.node?_putNode b') hbs hr.id hr.key hw.wellFormed hwf hk hb rfl
      (hu ▸ texts_of_revised hr)).1
  have hexact : Json.ExactMembers (withTexts "deps" b u) :=
    Json.exactMembers_set (hw.exact hbs) (Json.exact_ofTexts u) _
  have hset : Ends w (Graph.setContent b .keep (.put (some (withTexts "deps" b u))) .keep) _ _ :=
    Graph.ends_setContent hbs hexact
  replace hset := hset hw
  change Ended w _ _ ((Graph.setContent b .keep (.put (some (withTexts "deps" b u))) .keep).run w)
  cases hx : (Graph.setContent b .keep (.put (some (withTexts "deps" b u))) .keep).run w with
  | ok b' w' =>
      rw [hx] at hset
      exact ⟨hset.1, settled hset.1 hset.2.1 hset.2.2⟩
  | error e w' =>
      rw [hx] at hset
      obtain ⟨hk', -, b', hr, ht⟩ := hset
      exact ⟨hk', settled hk' hr ht⟩

/-- Deltas keep the ledger balanced, whether they can be applied or not. -/
theorem ends_applyDeltas {file : Node} {ds : List DependencyDelta} (h : Balanced p w)
    (hf : FileHandle p file w) (hds : ∀ d ∈ ds, d.Valid) :
    Ends w (applyDeltas p file ds) (fun _ => Balanced p) (Balanced p) := by
  refine Ends.transaction Balanced.of_quiet Balanced.of_quiet (fun _ _ _ h => h)
    fun w₁ hw₁ hr hd => ?_
  replace h := h.of_quiet hr
  replace hf := hf.of_quiet hr
  have hd : w₁.graph.depth ≠ 0 := by omega
  refine ((ends_node h.project).never fun _ h => hd h.1).bind
    fun b w₂ hw₂ hk₂ hb => ?_
  obtain ⟨hl, hfind⟩ := h.found hw₁.wellFormed (address_not_isFile _ _) hb
  replace hf := hf.found hw₁ (address_not_isFile _ _) hk₂.reach hb
  have hi₂ := hk₂.reach.instanceId_eq
  rw [← hi₂] at hl hfind
  have hbs := (Tables.findNode?_eq_some hw₂.wellFormed).mp hfind
  refine .reader (Graph.reader_require _) hl fun f hreq => ?_
  have hfile := hf.below (Graph.require_eq_ok hreq)
  obtain ⟨m, hm⟩ := hl.sheet hfile
  refine .reads (a := m) (by rw [hm.texts]; rfl) ?_
  have hd₂ : w₂.graph.depth ≠ 0 := hk₂.depth ▸ hd
  have hm' := (hm.orderly.foldl_applyDelta hds).sortByKey
  refine ends_takeOn hd₂ hfile.stored (Assoc.mem_keys_of_get? hbs.1) fun f' w₄ hw₄ hk₄ h₄ => ?_
  obtain ⟨hrev, hput, -, hps₄⟩ := h₄
  have htexts' := textsAt_of_texts? (texts_of_revised hrev)
  have hsheet : Sheet f' (Text.sortByKey (ds.foldl applyDelta m)) :=
    ⟨htexts', hm'⟩
  obtain ⟨he, hfind₄⟩ := hl.toEntries.declare hput hfile.stored hrev.id hrev.key hw₂.wellFormed
    hw₄.wellFormed (address_not_isFile _ _) hfind hfile hsheet
    (fun name => by
      rw [hps₄, Text.mem_keys_sortByKey]
      exact mem_foldl_point (fun name => ((hl.points hfile hm name).trans
        ⟨fun h => by obtain ⟨c, hc, hp⟩ := h; rw [hfind] at hc; cases hc; exact hp,
          fun hp => ⟨b, hfind, hp⟩⟩).symm)
        ds name)
    fun s name hs => by rw [hps₄]; exact mem_foldl_point_other hs ds name
  have balanced {w' : Workspace} (hk : Keeps w₄ w')
      (h : Ledger p (address p w₂.graph.instanceId) w'.tables) : Balanced p w' := by
    rw [Balanced, (hk₄.trans hk).reach.instanceId_eq]
    exact h
  refine .reads (a := union (versionIn w₂.tables) (pointers w₂.tables b.id))
    (by rw [textsAt_of_texts? (hl.balanced hfind)]; rfl) <| .reads (foldlM_eq
      (fun name _ u => refreshName_run ((he.legibleBehind hfind₄).edgesAt name) u) _) ?_
  refine (ends_settle he (address_not_isFile _ _) hfind₄ (sortByKey_refreshed fun k hk => ?_)).weaken
    ?_ ?_
  · have hk : ∀ d ∈ ds, d.name ≠ k := fun d hd he =>
      hk (List.mem_eraseDups.mpr (List.mem_map.mpr ⟨d, hd, he⟩))
    refine saidOf_deltas hps₄ hput hrev.id hfile.stored hm.texts htexts' hk ?_
    rw [Text.get?_sortByKey (hm.orderly.foldl_applyDelta hds).proper, get?_foldl_applyDelta hk]
  · exact fun _ w' hk h => balanced hk h
  · exact fun w' hk h => balanced hk h

/-! ## Replacing what a file declares -/

theorem valid_of_mapM {α : Type} {f : α → Except Invalid DependencyDelta}
    (hf : ∀ a d, f a = .ok d → d.Valid) {l : List α} {ds : List DependencyDelta}
    (h : l.mapM f = .ok ds) : ∀ d ∈ ds, d.Valid := by
  induction l generalizing ds with
  | nil => cases h; exact fun _ h => nomatch h
  | cons a l ih =>
      rw [List.mapM_cons] at h
      cases ha : f a with
      | error e => rw [ha] at h; cases h
      | ok d =>
          rw [ha] at h
          cases hl : l.mapM f with
          | error e => rw [hl] at h; cases h
          | ok ds' =>
              rw [hl] at h
              cases h
              intro d' hd'
              rcases List.mem_cons.mp hd' with rfl | hd'
              · exact hf a _ ha
              · exact ih hl d' hd'

/-- The deltas to a map are made, so they keep the rules. -/
theorem valid_of_deltasTo {m m' : Dependencies} {ds : List DependencyDelta}
    (h : deltasTo m m' = .ok ds) : ∀ d ∈ ds, d.Valid := by
  unfold deltasTo at h
  dsimp only at h
  cases hr : List.mapM (fun n => DependencyDelta.make .remove n none)
      ((Text.sortTexts (m.map Prod.fst)).filter fun n => !Assoc.has n m') with
  | error e => rw [hr] at h; cases h
  | ok rs =>
      rw [hr] at h
      cases ha : List.mapM (fun d : String × String => DependencyDelta.make .add d.1 (some d.2))
          (Text.sortByKey m') with
      | error e => rw [ha] at h; cases h
      | ok as =>
          rw [ha] at h
          cases h
          intro d hd
          rcases List.mem_append.mp hd with hd | hd
          · exact valid_of_mapM (fun _ _ => DependencyDelta.valid_of_make) hr d hd
          · exact valid_of_mapM (fun _ _ => DependencyDelta.valid_of_make) ha d hd

/-- Replacing keeps the ledger balanced, whether it succeeds or not. -/
theorem ends_replaceDeclared {file : Node} {declared : Dependencies} (h : Balanced p w)
    (hf : FileHandle p file w) :
    Ends w (replaceDeclared p file declared) (fun _ => Balanced p) (Balanced p) := by
  refine .reader (Graph.reader_require _) h fun f _ => ?_
  refine .reader (.lift _ _) h fun m _ => .reader (.lift _ _) h fun ds hds => ?_
  refine ends_applyDeltas h hf (valid_of_deltasTo (?_ : deltasTo m declared = .ok ds))
  cases hd : deltasTo m declared with
  | error e => rw [hd] at hds; cases hds
  | ok ds' => rw [hd] at hds; cases hds; rfl

/-! ## Reconciling -/

/-- Where the entries agree, reconciling balances the ledger.  A balanced ledger stays balanced,
also when reconciling fails. -/
theorem ends_reconcile (h : Entries p (address p w.graph.instanceId) w.tables) :
    Ends w (reconcile p) (fun _ => Balanced p) fun w' => Balanced p w → Balanced p w' := by
  intro hw
  have made {b : Node} {w₁ : Workspace} (hr : w₁.graph.instanceId = w.graph.instanceId)
      (hb : Graph.Found w.tables (address p w.graph.instanceId) (some [("deps", .obj [])]) b
        w₁.tables) (hbal : Balanced p w) : Balanced p w₁ := by
    rw [Balanced, hr]
    exact (hbal.found hw.wellFormed (address_not_isFile _ _) hb).1
  refine Ends.bind_run ((ends_node h.project).weaken (fun _ _ _ h => h) fun w' hk hf => ?_)
    (fun b w₁ hrun hw₁ hk₁ hb => ?_) hw
  · obtain ⟨-, b, hb⟩ := hf
    exact made hk.reach.instanceId_eq hb
  have hi := hk₁.reach.instanceId_eq
  have hmade := made hi hb
  obtain ⟨he, hfind, -⟩ := h.found hw.wellFormed (address_not_isFile _ _) hb
  rw [← hi] at he hfind
  refine .reads (declared_run (Graph.getOrCreate_again hw hrun) he hfind) ?_
  obtain ⟨m, hm, hproper, hsorted⟩ := he.manifest hfind
  refine .ite (fun _ => .ite (fun hl => ?_) fun _ => ?_) fun heq => .pure ?_
  · rw [listsNames_of_textsAt (textsAt_of_texts? hm)] at hl
    cases hl
  · have balanced {w' : Workspace} (hk : Keeps w₁ w')
        (h : Ledger p (address p w₁.graph.instanceId) w'.tables) : Balanced p w' := by
      rw [Balanced, hk.reach.instanceId_eq]
      exact h
    refine ((ends_settle he (address_not_isFile _ _) hfind rfl).weaken
      (fun _ _ hk h => balanced hk h) fun _ hk h _ => balanced hk h).bind fun _ _ _ _ h => .pure h
  · -- The manifest holds the union already, and in the same order.
    rw [Bool.not_eq_true', Bool.not_eq_false] at heq
    obtain ⟨m', hm', hsame⟩ := textsAt_of_holds heq
    rw [textsAt_of_texts? hm, Except.ok.injEq] at hm'
    subst hm'
    refine ⟨he, fun {b'} hb' => ?_⟩
    rw [hfind, Option.some.injEq] at hb'
    subst hb'
    rw [hm, ← hsorted]
    exact congrArg some ((Text.sortByKey_eq hproper proper_union
      (Assoc.get?_of_same hproper hsame)).trans (Text.sortByKey_sortByKey _))

end IntentBuild.Manifest
