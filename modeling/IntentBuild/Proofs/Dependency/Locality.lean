import IntentBuild.Proofs.Dependency.UnionLaw
import Mathlib.Data.List.Induction

/-!
# Deltas are local

Where the maps that deltas have to do with can be read (`Legible`), deltas leave a file with the fold of
them over what it declared, and touch nothing else but the manifest, and of the manifest only the map
(`Applies`).  So little has to be known of the rest of the graph: the files need not agree with their
edges, and other files may hold anything.

For a name the last delta decides (`verdict`), and only the deltas of a name count for the pointers at
it (`lane_foldl_point`).
-/

namespace IntentBuild.Manifest

open Op
open Assoc (keys Proper)

variable {p file : Node} {w w' : Workspace} {ds : List DependencyDelta} {names : List String}

/-! ## The last delta of a name -/

/-- What the last delta of a name makes of the name, if there is one. -/
def verdict (ds : List DependencyDelta) (k : String) : Option (Option String) :=
  (ds.reverse.find? fun d => d.name == k).map outcome

/-- The last delta of a name decides what is declared for it. -/
theorem get?_foldl_eq_verdict (ds : List DependencyDelta) (m : Dependencies) (k : String) :
    Assoc.get? k (ds.foldl applyDelta m) = (verdict ds k).getD (Assoc.get? k m) := by
  induction ds using List.reverseRecOn with
  | nil => rfl
  | append_singleton ds d ih =>
      rw [List.foldl_append, List.foldl_cons, List.foldl_nil, get?_applyDelta, verdict,
        List.reverse_append, List.reverse_singleton, List.singleton_append, List.find?_cons]
      by_cases hk : d.name = k
      · rw [if_pos hk, beq_iff_eq.mpr hk]
        rfl
      · rw [if_neg hk, beq_eq_false_iff_ne.mpr hk]
        exact ih

theorem proper_foldl_applyDelta {m : Dependencies} (hm : Proper m) (ds : List DependencyDelta) :
    Proper (ds.foldl applyDelta m) := by
  induction ds generalizing m with
  | nil => exact hm
  | cons d ds ih =>
      refine ih ?_
      unfold applyDelta
      cases d.operation with
      | add => exact Assoc.proper_set hm _ _
      | remove => exact Assoc.proper_erase hm _

/-- Deltas that are applied again change nothing. -/
theorem foldl_applyDelta_again {m : Dependencies} (hm : Proper m) (ds : List DependencyDelta) :
    Text.sortByKey (ds.foldl applyDelta (Text.sortByKey (ds.foldl applyDelta m))) =
      Text.sortByKey (ds.foldl applyDelta m) := by
  have hfold := proper_foldl_applyDelta hm ds
  refine Text.sortByKey_eq (proper_foldl_applyDelta (Text.proper_sortByKey hfold) ds) hfold fun k => ?_
  rw [get?_foldl_eq_verdict, Text.get?_sortByKey hfold, get?_foldl_eq_verdict]
  cases verdict ds k <;> rfl

/-! ## Pointers at a name -/

section

variable {s k : String} {ps ps' : List Pointer}

/-- The pointers at a name, in their order. -/
def lane (k : String) (ps : List Pointer) : List Pointer := ps.filter fun q => q.2 == k

theorem lane_point (d : DependencyDelta) :
    lane k (point s ps d) = if d.name = k then point s (lane k ps) d else lane k ps := by
  by_cases hk : d.name = k
  · subst hk
    rw [if_pos rfl]
    unfold point lane
    cases d.operation with
    | add =>
        by_cases hmem : (s, d.name) ∈ ps
        · rw [if_pos hmem, if_pos (List.mem_filter.mpr ⟨hmem, by simp⟩)]
        · rw [if_neg hmem, if_neg fun h => hmem (List.mem_filter.mp h).1, List.filter_append]
          simp
    | remove =>
        rw [List.filter_filter, List.filter_filter]
        exact List.filter_congr fun q _ => Bool.and_comm ..
  · rw [if_neg hk]
    have hone : ∀ d' ∈ [d], d'.name ≠ k := fun d' hd' => by rwa [List.mem_singleton.mp hd']
    exact filter_foldl_point hone

/-- Only the deltas of a name count for the pointers at it. -/
theorem lane_foldl_point (ds : List DependencyDelta) (ps : List Pointer) :
    lane k (ds.foldl (point s) ps) = (ds.filter fun d => d.name == k).foldl (point s) (lane k ps) := by
  induction ds generalizing ps with
  | nil => rfl
  | cons d ds ih =>
      rw [List.foldl_cons, ih, lane_point]
      by_cases hk : d.name = k
      · rw [if_pos hk, List.filter_cons_of_pos (by simpa using hk), List.foldl_cons]
      · rw [if_neg hk, List.filter_cons_of_neg (by simpa using hk)]

/-- Deltas of one name leave the pointers of others, in their order. -/
theorem filter_foldl_point_same (hk : ∀ d ∈ ds, d.name = k) (ps : List Pointer) :
    (ds.foldl (point s) ps).filter (· ≠ (s, k)) = ps.filter (· ≠ (s, k)) := by
  induction ds generalizing ps with
  | nil => rfl
  | cons d ds ih =>
      rw [List.foldl_cons, ih fun d' hd' => hk d' (.tail _ hd')]
      obtain rfl := hk d (.head _)
      unfold point
      cases d.operation with
      | add =>
          dsimp only
          split
          · rfl
          · simp [List.filter_append]
      | remove => simp [List.filter_filter]

/-- With a removal among deltas of one name, the pointers of others alone count. -/
theorem foldl_point_congr (hk : ∀ d ∈ ds, d.name = k) (hd : ∃ d ∈ ds, d.operation = .remove)
    (h : ps.filter (· ≠ (s, k)) = ps'.filter (· ≠ (s, k))) :
    ds.foldl (point s) ps = ds.foldl (point s) ps' := by
  induction ds generalizing ps ps' with
  | nil => obtain ⟨d, hd, -⟩ := hd; cases hd
  | cons d ds ih =>
      rw [List.foldl_cons, List.foldl_cons]
      have hname := hk d (.head _)
      have hsingle : ∀ d' ∈ [d], d'.name = k := fun d' hd' => by rwa [List.mem_singleton.mp hd']
      have hone (ps : List Pointer) :
          (point s ps d).filter (· ≠ (s, k)) = ps.filter (· ≠ (s, k)) :=
        filter_foldl_point_same hsingle ps
      cases ho : d.operation with
      | remove =>
          have hsame : point s ps d = point s ps' d := by
            unfold point
            rw [ho, hname]
            exact h
          rw [hsame]
      | add =>
          refine ih (fun d' hd' => hk d' (.tail _ hd')) ?_ ((hone ps).trans (h.trans (hone ps').symm))
          obtain ⟨d', hd', ho'⟩ := hd
          rcases List.mem_cons.mp hd' with rfl | hd'
          · rw [ho] at ho'
            cases ho'
          · exact ⟨d', hd', ho'⟩

/-- Without a removal a pointer that is there stays where it is. -/
theorem foldl_point_of_mem (hk : ∀ d ∈ ds, d.name = k) (hd : ∀ d ∈ ds, d.operation = .add)
    (hmem : (s, k) ∈ ps) : ds.foldl (point s) ps = ps := by
  induction ds with
  | nil => rfl
  | cons d ds ih =>
      have hstep : point s ps d = ps := by
        unfold point
        rw [hd d (.head _), hk d (.head _)]
        exact if_pos hmem
      rw [List.foldl_cons, hstep]
      exact ih (fun d' hd' => hk d' (.tail _ hd')) fun d' hd' => hd d' (.tail _ hd')

/-- Deltas of one name that are applied again leave the pointers in their order. -/
theorem foldl_point_again (hk : ∀ d ∈ ds, d.name = k) (ps : List Pointer) :
    ds.foldl (point s) (ds.foldl (point s) ps) = ds.foldl (point s) ps := by
  by_cases hrem : ∃ d ∈ ds, d.operation = .remove
  · exact foldl_point_congr hk hrem (filter_foldl_point_same hk ps)
  · have hadd (d : DependencyDelta) (hd : d ∈ ds) : d.operation = .add := by
      cases ho : d.operation with
      | add => rfl
      | remove => exact absurd ⟨d, hd, ho⟩ hrem
    cases ds with
    | nil => rfl
    | cons d ds =>
        refine foldl_point_of_mem hk hadd ?_
        have hstep : (s, k) ∈ point s ps d := by
          rw [mem_point, hadd d (.head _), hk d (.head _)]
          exact .inl rfl
        rw [List.foldl_cons, foldl_point_of_mem (fun d' hd' => hk d' (.tail _ hd'))
          (fun d' hd' => hadd d' (.tail _ hd')) hstep]
        exact hstep

/-- Deltas that are applied again leave the pointers at every name in their order. -/
theorem lane_foldl_point_again (ds : List DependencyDelta) (ps : List Pointer) :
    lane k (ds.foldl (point s) (ds.foldl (point s) ps)) = lane k (ds.foldl (point s) ps) := by
  rw [lane_foldl_point, lane_foldl_point]
  exact foldl_point_again (fun d hd => by simpa using (List.mem_filter.mp hd).2) _

end

/-! ## What deltas read -/

/-- A member of the manifest of a project, if the manifest is there. -/
def member? (p : Node) (key : String) (w : Workspace) : Option Json :=
  (node? p w).bind fun b => Assoc.get? key b.members

/-- What deltas of a file have to do with can be read.  The file, the manifest, and the nodes that edges
with the names lead from to the manifest have a map of texts, or none. -/
structure Legible (p file : Node) (names : List String) (w : Workspace) : Prop where
  /-- The project is there. -/
  project : p.id ∈ keys w.tables.nodes
  /-- The file is there, and its map can be read. -/
  file : ∃ f m, w.tables.node? file.id = some f ∧ f.type.IsFile ∧ textsAt "deps" f = .ok m ∧ Proper m
  /-- The map of the manifest can be read, if the manifest is there. -/
  manifest : ∀ {b}, node? p w = some b → ∃ m, textsAt "deps" b = .ok m ∧ Proper m
  /-- The maps behind the edges can be read. -/
  source : ∀ {b}, node? p w = some b → ∀ k ∈ names, LegibleBehind w.tables (edgesAt w.tables b k)

/-- Fewer names ask for less. -/
theorem Legible.mono {names' : List String} (h : Legible p file names w)
    (hnames : ∀ k ∈ names', k ∈ names) : Legible p file names' w :=
  ⟨h.project, h.file, h.manifest, fun hb k hk => h.source hb k (hnames k hk)⟩

theorem texts?_of_textsAt {key : String} {n : Node} {m : Dependencies} (h : textsAt key n = .ok m) :
    (texts? key n).getD [] = m := by
  unfold textsAt at h
  unfold texts?
  split at h
  · rename_i hg
    cases h
    rw [hg]
    rfl
  · rename_i ms hg
    rw [hg]
    dsimp only
    split at h
    · rename_i ts hts
      cases h
      rw [hts]
      rfl
    · cases h
  · cases h

theorem kept_of_textsAt {b : Node} {m : Dependencies} (hb : node? p w = some b)
    (hm : textsAt "deps" b = .ok m) : kept p w = m := by
  rw [kept, hb]
  exact texts?_of_textsAt hm

section

variable (hr : Reach Event.None w w')
include hr

theorem node?_of_quiet : node? p w' = node? p w := by
  rw [node?, node?, hr.tables_of_quiet, hr.instanceId_eq]

theorem kept_of_quiet : kept p w' = kept p w := by
  rw [kept, kept, node?_of_quiet hr]

theorem member?_of_quiet (key : String) : member? p key w' = member? p key w := by
  rw [member?, member?, node?_of_quiet hr]

theorem Legible.of_quiet (h : Legible p file names w) : Legible p file names w' := by
  have ht := hr.tables_of_quiet
  exact ⟨ht ▸ h.project, ht ▸ h.file, fun hb => h.manifest (node?_of_quiet hr ▸ hb),
    fun hb => ht ▸ h.source (node?_of_quiet hr ▸ hb)⟩

end

/-! ## Making the manifest -/

/-- The manifest is there, and all else is as it was. -/
structure Opened (p b : Node) (w w' : Workspace) : Prop where
  /-- The manifest is there. -/
  found : node? p w' = some b
  /-- Other nodes are as they were. -/
  node : ∀ {i}, i ≠ b.id → w'.tables.node? i = w.tables.node? i
  /-- The edges are as they were. -/
  edges : w'.tables.edges = w.tables.edges
  /-- The map of the manifest is as it was. -/
  kept : kept p w' = kept p w
  /-- Its other members are as they were. -/
  member : ∀ key, key ≠ "deps" → member? p key w' = member? p key w
  /-- The manifest was there, or it is new and has an empty map. -/
  origin : node? p w = some b ∨
    node? p w = none ∧ b.id ∉ keys w.tables.nodes ∧ textsAt "deps" b = .ok []

theorem Opened.of_found {b : Node} (hw : w.Sound) (hr : Reach Event.Any w w')
    (hb : Graph.Found w.tables (address p w.graph.instanceId) (some [("deps", .obj [])]) b
      w'.tables) : Opened p b w w' := by
  have hfound : node? p w' = some b := by
    rw [node?, hr.instanceId_eq]
    exact (Tables.findNode?_eq_some (hr.sound hw).wellFormed).mpr (hb.node? hw.wellFormed)
  generalize ht : w'.tables = t at hb
  cases hb with
  | old ho =>
      have hold : node? p w = some b := ho
      exact ⟨hfound, fun _ => by rw [ht], by rw [ht], by rw [Manifest.kept, Manifest.kept, hfound, hold],
        fun key _ => by rw [member?, member?, hfound, hold], .inl hold⟩
  | new hn hkey hj _ _ =>
      obtain ⟨rfl, hi, hki, -⟩ := Tables.insertNode_eq_ok hn
      have hnone : node? p w = none := by
        rw [node?, Tables.findNode?, Assoc.get?_eq_none_iff.mpr (hkey ▸ hki), Option.bind_none]
      have hmembers : b.members = [("deps", .obj [])] := by rw [Node.members, hj]; rfl
      refine ⟨hfound, fun hne => ?_, by rw [ht]; rfl, ?_, fun key hk => ?_, .inr ⟨hnone, hi, ?_⟩⟩
      · rw [ht]
        exact Assoc.get?_set_other hne ..
      · rw [Manifest.kept, Manifest.kept, hfound, hnone]
        dsimp only
        rw [texts?, hmembers]
        rfl
      · rw [member?, member?, hfound, hnone, Option.bind_some, hmembers]
        exact Assoc.get?_cons_other hk.symm ..
      · rw [textsAt, hmembers]
        rfl

/-- A file is not the manifest. -/
theorem Opened.ne_file {b f : Node} (h : Opened p b w w') (hw : w.Sound)
    (hf : w.tables.node? file.id = some f) (ht : f.type.IsFile) : file.id ≠ b.id := by
  intro he
  rcases h.origin with hold | ⟨-, hnew, -⟩
  · obtain ⟨hb, hk⟩ := (Tables.findNode?_eq_some hw.wellFormed).mp hold
    rw [he, hb, Option.some.injEq] at hf
    rw [← hf, show b.type = .deps from congrArg NodeKey.type hk] at ht
    exact absurd ht (address_not_isFile p "")
  · exact hnew (he ▸ Assoc.mem_keys_of_get? hf)

theorem Legible.opened {b : Node} (h : Legible p file names w) (ho : Opened p b w w') (hw : w.Sound)
    (hw' : w'.Sound) : Legible p file names w' where
  project := by
    by_cases hp : p.id = b.id
    · obtain ⟨hb, -⟩ := (Tables.findNode?_eq_some hw'.wellFormed).mp ho.found
      exact hp ▸ Assoc.mem_keys_of_get? hb
    · obtain ⟨n, hn⟩ := Assoc.exists_get?_of_mem_keys h.project
      exact Assoc.mem_keys_of_get? ((ho.node hp).trans hn)
  file := by
    obtain ⟨f, m, hf, ht, hm⟩ := h.file
    exact ⟨f, m, (ho.node (ho.ne_file hw hf ht)).trans hf, ht, hm⟩
  manifest := by
    intro b' hb'
    obtain rfl := Option.some.inj (ho.found.symm.trans hb')
    rcases ho.origin with hold | ⟨-, -, htexts⟩
    · exact h.manifest hold
    · exact ⟨[], htexts, Assoc.proper_nil⟩
  source := by
    intro b' hb' k hk e he n hn
    obtain rfl := Option.some.inj (ho.found.symm.trans hb')
    rw [edgesAt, Tables.edgesTo, Tables.allEdges, ho.edges] at he
    rcases ho.origin with hold | ⟨-, hnew, -⟩
    · by_cases hs : e.source = b.id
      · obtain ⟨hb, -⟩ := (Tables.findNode?_eq_some hw'.wellFormed).mp ho.found
        rw [hs, hb, Option.some.injEq] at hn
        obtain ⟨m, hm, -⟩ := h.manifest hold
        exact ⟨m, hn ▸ hm⟩
      · exact h.source hold k hk e he n (ho.node hs ▸ hn)
    · obtain ⟨hrow, ht⟩ := Graph.mem_edgesTo (List.mem_filter.mp he).1
      exact absurd (ht ▸ (hw.wellFormed.ends ((Tables.mem_allEdges hw.wellFormed).mp hrow)).2) hnew

/-! ## What deltas leave -/

/-- A node with another map, and with all its other members. -/
structure Redeclares (n n' : Node) (m : Dependencies) : Prop where
  /-- The map is read back. -/
  texts : textsAt "deps" n' = .ok m
  /-- The other members are as they were. -/
  member : ∀ key, key ≠ "deps" → Assoc.get? key n'.members = Assoc.get? key n.members
  /-- The address stays. -/
  key : n'.key = n.key
  /-- The content stays. -/
  content : n'.content = n.content

theorem Redeclares.of_revised {n old new : Node} {m : Dependencies} (hold : old.members = n.members)
    (hr : Graph.Revised .keep (.put (some (withTexts "deps" n m))) .keep old new) :
    Redeclares old new m where
  texts := textsAt_of_texts? (texts_of_revised hr)
  member key hk := by
    rw [Node.members, hr.json, hold]
    exact Assoc.get?_set_other hk ..
  key := hr.key
  content := hr.content

/-- Deltas were applied to a file, exactly and with no effect elsewhere. -/
structure Applies (p file : Node) (ds : List DependencyDelta) (w w' : Workspace) : Prop where
  /-- The file declares the fold of the deltas over what it declared. -/
  declares : ∃ f f' m, w.tables.node? file.id = some f ∧ w'.tables.node? file.id = some f' ∧
    textsAt "deps" f = .ok m ∧ Redeclares f f' (Text.sortByKey (ds.foldl applyDelta m))
  /-- The manifest is there, and its map is in order. -/
  manifest : ∃ b, node? p w' = some b ∧ textsAt "deps" b = .ok (kept p w') ∧
    Proper (kept p w') ∧ Text.sortByKey (kept p w') = kept p w'
  /-- The other members of the manifest are as they were, among them the synced map. -/
  member : ∀ key, key ≠ "deps" → member? p key w' = member? p key w
  /-- In the map only the names of the deltas may change. -/
  deps : ∀ name, name ∉ ds.map DependencyDelta.name →
    Assoc.get? name (kept p w') = Assoc.get? name (kept p w)
  /-- Every other node is as it was. -/
  node : ∀ {i}, i ≠ file.id → (∀ b, node? p w' = some b → i ≠ b.id) →
    w'.tables.node? i = w.tables.node? i
  /-- Every edge is as it was, but for those from the file to the manifest with a name of the deltas. -/
  edge : ∀ {e : Edge}, ¬ (e.source = file.id ∧ (∃ b, node? p w' = some b ∧ e.target = b.id) ∧
      e.type = .dependsOn ∧ e.name ∈ ds.map DependencyDelta.name) →
    (Assoc.get? e.id w'.tables.edges = some e ↔ Assoc.get? e.id w.tables.edges = some e)

/-- The versions that are compared for the map of the manifest.  The manifest itself, if an edge leads
from it, has its version of before. -/
def versionThen (p b : Node) (w w' : Workspace) (s k : String) : Option String :=
  if s = b.id then Assoc.get? k (kept p w) else versionIn w'.tables s k

/-- What is known besides of the manifest after deltas were applied. -/
structure Refreshes (p file : Node) (ds : List DependencyDelta) (w w' : Workspace) (b : Node) :
    Prop where
  /-- The manifest is there. -/
  found : node? p w' = some b
  /-- It stands where it stood. -/
  same : ∀ {b₀}, node? p w = some b₀ → b₀.id = b.id
  /-- The pointers at it are those that the deltas say. -/
  pointers : pointers w'.tables b.id = ds.foldl (point file.id) (pointers w.tables b.id)
  /-- For the names of the deltas it has the best version behind a pointer. -/
  best : ∀ k ∈ ds.map DependencyDelta.name, Assoc.get? k (kept p w') =
    best (saidOf (said (versionThen p b w w') (Manifest.pointers w'.tables b.id)) k)
  /-- The same deltas can be applied again. -/
  legible : Legible p file (ds.map DependencyDelta.name) w'

section

variable {w₀ w₁ : Workspace} (hr : Reach Event.None w₀ w) (hr' : Reach Event.None w' w₁)
include hr hr'

theorem Applies.of_quiet (h : Applies p file ds w w') : Applies p file ds w₀ w₁ := by
  obtain ⟨hdeclares, hmanifest, hmember, hdeps, hnode, hedge⟩ := h
  simp only [hr.tables_of_quiet, ← hr'.tables_of_quiet, ← node?_of_quiet hr', kept_of_quiet hr,
    ← kept_of_quiet hr', member?_of_quiet hr, ← member?_of_quiet hr'] at *
  exact ⟨hdeclares, hmanifest, hmember, hdeps, hnode, hedge⟩

theorem Refreshes.of_quiet {b : Node} (h : Refreshes p file ds w w' b) :
    Refreshes p file ds w₀ w₁ b where
  found := (node?_of_quiet hr').trans h.found
  same hb := h.same ((node?_of_quiet hr).trans hb)
  pointers := by
    rw [hr'.tables_of_quiet, ← hr.tables_of_quiet]
    exact h.pointers
  best k hk := by
    have hversion : versionThen p b w₀ w₁ = versionThen p b w w' := by
      funext s k
      rw [versionThen, versionThen, ← kept_of_quiet hr, hr'.tables_of_quiet]
    rw [kept_of_quiet hr', hversion, hr'.tables_of_quiet]
    exact h.best k hk
  legible := h.legible.of_quiet hr'

end

/-! ## What is written -/

/-- An edge behind a name that was there before was behind the name before. -/
theorem mem_edgesAt_of_edge {t t' : Tables} {b b' : Node} {k : String} {e : Edge} (hwf : t.WellFormed)
    (hwf' : t'.WellFormed) (hid : b'.id = b.id)
    (hold : Assoc.get? e.id t'.edges = some e → Assoc.get? e.id t.edges = some e)
    (he : e ∈ edgesAt t' b' k) : e ∈ edgesAt t b k := by
  obtain ⟨he, hname⟩ := List.mem_filter.mp he
  obtain ⟨hrow, hto⟩ := List.mem_filter.mp he
  refine List.mem_filter.mpr ⟨List.mem_filter.mpr ⟨(Tables.mem_allEdges hwf).mpr ?_, hid ▸ hto⟩, hname⟩
  exact hold ((Tables.mem_allEdges hwf').mp hrow)

/-- A file and the manifest were written anew, and the links between them.  The versions of other files
are compared as they are afterwards, but for the version of the manifest itself. -/
structure Rewrites (p file b : Node) (ds : List DependencyDelta) (w w' : Workspace) : Prop where
  /-- The file has taken on the deltas. -/
  declares : ∃ f f' m, w.tables.node? file.id = some f ∧ w'.tables.node? file.id = some f' ∧
    textsAt "deps" f = .ok m ∧ Redeclares f f' (Text.sortByKey (ds.foldl applyDelta m))
  /-- The manifest was there. -/
  opened : node? p w = some b
  /-- The manifest was refreshed at the names of the deltas. -/
  refreshes : ∃ b', node? p w' = some b' ∧ b'.id = b.id ∧ Redeclares b b' (Text.sortByKey
    ((ds.map DependencyDelta.name).eraseDups.foldl
      (refreshed (versionThen p b w w') (pointers w'.tables b.id)) (kept p w)))
  /-- Other nodes are as they were. -/
  node : ∀ {i}, i ≠ file.id → i ≠ b.id → w'.tables.node? i = w.tables.node? i
  /-- Other edges are as they were. -/
  edge : ∀ {e : Edge}, ¬ (e.source = file.id ∧ e.target = b.id ∧ e.type = .dependsOn ∧
      e.name ∈ ds.map DependencyDelta.name) →
    (Assoc.get? e.id w'.tables.edges = some e ↔ Assoc.get? e.id w.tables.edges = some e)
  /-- The pointers at the manifest follow the deltas. -/
  pointers : pointers w'.tables b.id = ds.foldl (point file.id) (pointers w.tables b.id)

namespace Rewrites

variable {b : Node} {w₀ : Workspace}

theorem applies (h : Rewrites p file b ds w w') (ho : Opened p b w₀ w) (hne : file.id ≠ b.id)
    (hkept : Proper (kept p w)) : Applies p file ds w₀ w' := by
  obtain ⟨f, f', m, hf, hf', hm, hdeclares⟩ := h.declares
  obtain ⟨b', hb', hid, hmanifest⟩ := h.refreshes
  have hkept' := kept_of_textsAt hb' hmanifest.texts
  have hproper : Proper ((ds.map DependencyDelta.name).eraseDups.foldl (refreshed
      (versionThen p b w w') (Manifest.pointers w'.tables b.id)) (kept p w)) :=
    proper_foldl_refreshed hkept _
  refine ⟨⟨f, f', m, (ho.node hne).symm.trans hf, hf', hm, hdeclares⟩,
    ⟨b', hb', hkept' ▸ hmanifest.texts, ?_, ?_⟩, fun key hk => ?_, fun name hname => ?_,
    fun hi hb => ?_, fun {e} he => ?_⟩
  · rw [hkept']
    exact Text.proper_sortByKey hproper
  · rw [hkept']
    exact Text.sortByKey_sortByKey _
  · rw [← ho.member key hk, member?, member?, hb', h.opened]
    exact hmanifest.member key hk
  · rw [hkept', Text.get?_sortByKey hproper, get?_foldl_refreshed,
      if_neg (List.mem_eraseDups.not.mpr hname), ho.kept]
  · have hib := hid ▸ hb b' hb'
    rw [h.node hi hib, ho.node hib]
  · rw [h.edge fun hlink => he ⟨hlink.1, ⟨b', hb', hlink.2.1.trans hid.symm⟩, hlink.2.2⟩, ho.edges]

theorem legible (h : Rewrites p file b ds w w') (hw : w.Sound) (hw' : w'.Sound)
    (hleg : Legible p file names w) (hkept : Proper (kept p w)) : Legible p file names w' := by
  obtain ⟨f, f', m, hf, hf', hm, hdeclares⟩ := h.declares
  obtain ⟨b', hb', hid, hmanifest⟩ := h.refreshes
  obtain ⟨hbs', -⟩ := (Tables.findNode?_eq_some hw'.wellFormed).mp hb'
  obtain ⟨f₀, m₀, hf₀, htype, hm₀, hproper⟩ := hleg.file
  cases hf.symm.trans hf₀
  cases hm.symm.trans hm₀
  refine ⟨?_, ⟨f', _, hf', ?_, hdeclares.texts,
    Text.proper_sortByKey (proper_foldl_applyDelta hproper ds)⟩, fun hb => ?_,
    fun hb k hk e he n hn => ?_⟩
  · by_cases hpf : p.id = file.id
    · exact hpf ▸ Assoc.mem_keys_of_get? hf'
    · by_cases hpb : p.id = b.id
      · exact hpb ▸ hid ▸ Assoc.mem_keys_of_get? hbs'
      · obtain ⟨n, hn⟩ := Assoc.exists_get?_of_mem_keys hleg.project
        exact Assoc.mem_keys_of_get? ((h.node hpf hpb).trans hn)
  · have htype' : f'.type = f.type := congrArg NodeKey.type hdeclares.key
    rwa [htype']
  · cases hb.symm.trans hb'
    exact ⟨_, hmanifest.texts, Text.proper_sortByKey (proper_foldl_refreshed hkept _)⟩
  · cases hb.symm.trans hb'
    by_cases hs : e.source = file.id
    · cases (hs ▸ hn).symm.trans hf'
      exact ⟨_, hdeclares.texts⟩
    · by_cases hsb : e.source = b.id
      · cases (hsb ▸ hn).symm.trans (hid ▸ hbs')
        exact ⟨_, hmanifest.texts⟩
      · exact hleg.source h.opened k hk e (mem_edgesAt_of_edge hw.wellFormed hw'.wellFormed hid
          (h.edge fun hlink => hs hlink.1).mp he) n (h.node hs hsb ▸ hn)

theorem refreshes_of (h : Rewrites p file b ds w w') (ho : Opened p b w₀ w) (hw : w.Sound)
    (hw' : w'.Sound) (hleg : Legible p file (ds.map DependencyDelta.name) w)
    (hkept : Proper (kept p w)) {b' : Node} (hb' : node? p w' = some b') :
    Refreshes p file ds w₀ w' b' := by
  obtain ⟨b'', hb'', hid, hmanifest⟩ := h.refreshes
  cases hb''.symm.trans hb'
  refine ⟨hb', fun {b₀} hb₀ => ?_, ?_, fun k hk => ?_, h.legible hw hw' hleg hkept⟩
  · rcases ho.origin with hold | ⟨hnone, -⟩
    · cases hold.symm.trans hb₀
      exact hid.symm
    · cases hnone.symm.trans hb₀
  · rw [hid, h.pointers, pointers_congr ho.edges]
  · have hversion : versionThen p b' w₀ w' = versionThen p b w w' := by
      funext s k
      rw [versionThen, versionThen, hid, ho.kept]
    rw [kept_of_textsAt hb' hmanifest.texts, Text.get?_sortByKey (proper_foldl_refreshed hkept _),
      get?_foldl_refreshed, if_pos (List.mem_eraseDups.mpr hk), hversion, hid]

end Rewrites

/-! ## What applying deltas does -/

namespace TakesOn

variable {b f f' : Node} {m : Dependencies}

/-- The maps behind the edges can still be read after the file has taken on its own. -/
theorem legibleBehind (h : TakesOn b f ds m w.tables f' w'.tables) (hw : w.Sound) (hw' : w'.Sound)
    (hb : node? p w = some b)
    (hleg : Legible p file (ds.map DependencyDelta.name) w) {k : String}
    (hk : k ∈ ds.map DependencyDelta.name) : LegibleBehind w'.tables (edgesAt w'.tables b k) := by
  intro e he n hn
  rw [h.node] at hn
  split at hn
  · cases hn
    exact ⟨m, textsAt_of_texts? (texts_of_revised h.revised)⟩
  · rename_i hs
    exact hleg.source hb k hk e (mem_edgesAt_of_edge hw.wellFormed hw'.wellFormed rfl
      (h.edge fun hlink => hs (hlink.1.trans h.revised.id.symm)).mp he) n hn

variable {b' : Node} {before known : Dependencies} {w'' : Workspace}

/-- Then the manifest is refreshed, and both are written anew. -/
theorem rewrites (h : TakesOn b f ds (Text.sortByKey (ds.foldl applyDelta before)) w.tables f' w'.tables)
    (hf : w.tables.node? file.id = some f) (hid : f.id = file.id) (hm : textsAt "deps" f = .ok before)
    (hb : node? p w = some b) (hbs : w'.tables.node? b.id = some b)
    (hknown : textsAt "deps" b = .ok known) (hne : file.id ≠ b.id)
    (hr : Graph.Revised .keep (.put (some (withTexts "deps" b (Text.sortByKey
      ((ds.map DependencyDelta.name).eraseDups.foldl
        (refreshed (versionIn w'.tables) (Manifest.pointers w'.tables b.id)) known))))) .keep b b')
    (ht : w''.tables = w'.tables.putNode b') (hfound : node? p w'' = some b') :
    Rewrites p file b ds w w'' := by
  have hput (i : String) : w'.tables.node? i = if i = file.id then some f' else w.tables.node? i := by
    rw [h.node, h.revised.id, hid]
  have hput' (i : String) : w''.tables.node? i = if i = b.id then some b' else w'.tables.node? i := by
    rw [ht, Tables.node?_putNode, hr.id]
  have hedges : w''.tables.edges = w'.tables.edges := by rw [ht]; rfl
  have hversion : versionThen p b w w'' = versionIn w'.tables := by
    funext s k
    rw [versionThen]
    split
    · rename_i hs
      rw [hs, versionIn_eq hbs hknown, kept_of_textsAt hb hknown]
    · rename_i hs
      rw [versionIn, versionIn, hput', if_neg hs]
  have hpointers : Manifest.pointers w''.tables b.id = Manifest.pointers w'.tables b.id :=
    pointers_congr hedges _
  refine ⟨⟨f, f', before, hf, ?_, hm, .of_revised rfl h.revised⟩, hb, ⟨b', hfound, hr.id, ?_⟩,
    fun hi hib => ?_, fun {e} he => ?_, ?_⟩
  · rw [hput', if_neg hne, hput, if_pos rfl]
  · rw [hversion, hpointers, kept_of_textsAt hb hknown]
    exact .of_revised rfl hr
  · rw [hput', if_neg hib, hput, if_neg hi]
  · rw [hedges]
    exact h.edge (hid ▸ he)
  · rw [hpointers, h.pointers, hid]

end TakesOn

/-- Deltas are applied where what they read can be read, and then the document is written.  Nothing else
can fail. -/
theorem ends_applyDeltas_local (h : Legible p file (ds.map DependencyDelta.name) w) :
    Ends w (applyDeltas p file ds)
      (fun b w' => Applies p file ds w w' ∧ Refreshes p file ds w w' b)
      fun w' => w.graph.depth = 0 ∧ ¬ w'.Writable ∧
        ∃ b, Applies p file ds w w' ∧ Refreshes p file ds w w' b := by
  refine Ends.transaction_sure (fun hr h => ⟨h.1.of_quiet (.refl w) hr, h.2.of_quiet (.refl w) hr⟩)
    fun w₁ hw₁ hr hd => ?_
  replace h := h.of_quiet hr
  have hd : w₁.graph.depth ≠ 0 := by omega
  refine ((ends_node h.project).never fun _ h => hd h.1).bind fun b w₂ hw₂ hk₂ hb => ?_
  have hopened : Opened p b w₁ w₂ := .of_found hw₁ hk₂.reach hb
  have hne : file.id ≠ b.id := by
    obtain ⟨f, -, hf, htype, -⟩ := h.file
    exact hopened.ne_file hw₁ hf htype
  replace h := h.opened hopened hw₁ hw₂
  obtain ⟨f, m, hf, -, hm, -⟩ := h.file
  have hid : f.id = file.id := hw₂.wellFormed.nodes.owned hf
  obtain ⟨hbs, hbkey⟩ := (Tables.findNode?_eq_some hw₂.wellFormed).mp hopened.found
  obtain ⟨known, hknown, hproper⟩ := h.manifest hopened.found
  refine .reads (Graph.require_run hf) <| .reads (a := m) (by rw [hm]; rfl) ?_
  have hd₂ : w₂.graph.depth ≠ 0 := hk₂.depth ▸ hd
  refine ends_takeOn hd₂ (hid ▸ hf) (Assoc.mem_keys_of_get? hbs) fun f' w₄ hw₄ hk₄ h₄ => ?_
  have hbs₄ : w₄.tables.node? b.id = some b := by
    rw [h₄.node, h₄.revised.id, hid, if_neg (Ne.symm hne), hbs]
  refine .reads (a := known) (by rw [hknown]; rfl) <| .reads (foldlM_eq (fun name hname u =>
    refreshName_run (h₄.legibleBehind hw₂ hw₄ hopened.found h (List.mem_eraseDups.mp hname)) u) _) ?_
  have hexact : Json.ExactMembers (withTexts "deps" b (Text.sortByKey
      ((ds.map DependencyDelta.name).eraseDups.foldl
        (refreshed (versionIn w₄.tables) (pointers w₄.tables b.id)) known))) :=
    Json.exactMembers_set (hw₄.exact hbs₄) (Json.exact_ofTexts _) _
  have hset : Ends w₄ (Graph.setJson b (withTexts "deps" b _)) _ _ := Graph.ends_setContent hbs₄ hexact
  refine (hset.never fun _ h => (hk₄.depth ▸ hd₂ : w₄.graph.depth ≠ 0) h.1).weaken
    (fun b' w₅ hk₅ h₅ => ?_) fun _ _ h => h
  have hw₅ : w₅.Sound := hk₅.reach.sound hw₄
  obtain ⟨hrev, ht₅⟩ := h₅
  have hfound : node? p w₅ = some b' := by
    rw [node?, (hk₄.trans hk₅).reach.instanceId_eq]
    exact (Tables.findNode?_eq_some hw₅.wellFormed).mpr
      ⟨by rw [ht₅, Tables.node?_putNode, if_pos rfl], hrev.key.trans hbkey⟩
  have hrewrites : Rewrites p file b ds w₂ w₅ :=
    h₄.rewrites hf hid hm hopened.found hbs₄ hknown hne hrev ht₅ hfound
  have hkept : Proper (kept p w₂) := kept_of_textsAt hopened.found hknown ▸ hproper
  exact ⟨(hrewrites.applies hopened hne hkept).of_quiet hr (.refl _),
    (hrewrites.refreshes_of hopened hw₂ hw₅ h hkept hfound).of_quiet hr (.refl _)⟩

end IntentBuild.Manifest
