import IntentBuild.Proofs.Build.Freshness
import IntentBuild.Proofs.Dependency.Requests
import IntentBuild.Proofs.Json.Tidy

/-!
# No drift without a hand from outside

The file of the dependencies and the synced map are written by separate steps, and many operations
change the manifest.  Still the file says what was synced last, as long as only synchronisations
write it and nothing puts a node in the place of the manifest or deletes it (`History`).

`Tended` is what every step of a history keeps.  A row of changes that leave the synced map alone
keeps it (`Tended.reach`), and so does a synchronisation, also one that finds nothing to write
(`Tended.synced`).
-/

namespace IntentBuild

open Op
open Assoc (Proper)

namespace DepsFile

variable {P : Path} {p q : Node} {m : Dependencies} {s : Sync} {text : String}
  {bytes : ByteArray} {w w' : Workspace}

/-! ## What the file says -/

/-- The text spells an object with one member, the map under the name `deps`. -/
def Spells (text : String) (m : Dependencies) : Prop :=
  ∃ ts, Json.parse? text = some (.obj [("deps", .ofTexts ts)]) ∧
    ∀ k, Assoc.get? k ts = Assoc.get? k m

theorem eq_of_texts? {ms : Members} {ts : Dependencies} (h : Json.texts? ms = some ts) :
    Json.obj ms = .ofTexts ts := by
  rw [Json.ofTexts, Json.obj.injEq]
  induction ms generalizing ts with
  | nil => cases h; rfl
  | cons e ms ih =>
      obtain ⟨k, v⟩ := e
      cases v with
      | str s =>
          obtain ⟨ts', hts, rfl⟩ := Option.map_eq_some_iff.mp h
          rw [List.map_cons, ih hts]
      | _ => cases h

/-- The comparison of the file with a map holds just when the file spells the map. -/
theorem spells_iff (hm : Proper m) :
    Spells text m ↔ ∃ found, Json.parse? text = some (.obj found) ∧ matchesFile found m = true := by
  have proper {ts : Dependencies} (h : Json.parse? text = some (.obj [("deps", .ofTexts ts)])) :
      Proper ts := by
    have htidy := (Json.tidy_parse? h).2.1.1
    simpa [Proper, Assoc.keys, Function.comp_def] using htidy
  constructor
  · rintro ⟨ts, hparse, hget⟩
    refine ⟨_, hparse, ?_⟩
    simp only [Json.ofTexts, matchesFile, Manifest.texts?_ofTexts]
    exact (Assoc.same_iff (proper hparse) hm).mpr hget
  · rintro ⟨found, hparse, hmatch⟩
    unfold matchesFile at hmatch
    split at hmatch
    · rename_i ms
      cases hts : Json.texts? ms with
      | none => rw [hts] at hmatch; cases hmatch
      | some ts =>
          rw [hts] at hmatch
          rw [eq_of_texts? hts] at hparse
          exact ⟨ts, hparse, (Assoc.same_iff (proper hparse) hm).mp hmatch⟩
    · cases hmatch

theorem Spells.congr {u : Dependencies} (h : Spells text m)
    (hu : ∀ k, Assoc.get? k m = Assoc.get? k u) : Spells text u := by
  obtain ⟨ts, hparse, hget⟩ := h
  exact ⟨ts, hparse, fun k => (hget k).trans (hu k)⟩

/-- A text spells one map only. -/
theorem Spells.unique {u : Dependencies} (h : Spells text m) (h' : Spells text u) (k : String) :
    Assoc.get? k m = Assoc.get? k u := by
  obtain ⟨ts, hparse, hget⟩ := h
  obtain ⟨ts', hparse', hget'⟩ := h'
  rw [hparse, Option.some.injEq, Json.obj.injEq, List.cons.injEq, Prod.mk.injEq, Json.ofTexts,
    Json.ofTexts, Json.obj.injEq] at hparse'
  have htexts := Manifest.texts?_ofTexts ts
  rw [hparse'.1.2, Manifest.texts?_ofTexts, Option.some.injEq] at htexts
  rw [← hget, ← htexts, hget']

theorem Spells.of_render (hm : Proper m) : Spells (render m) m :=
  ⟨_, parse?_render hm, Text.get?_sortByKey hm⟩

theorem render_eq {u : Dependencies} (hm : Proper m) (hu : Proper u)
    (h : Assoc.same m u = true) : render m = render u := by
  rw [render, render, content, content, Text.sortByKey_eq hm hu ((Assoc.same_iff hm hu).mp h)]

/-! ## The invariant -/

/-- The file is as it was, or gone. -/
def Untouched (P : Path) (w w' : Workspace) : Prop :=
  bytes? P w' = bytes? P w ∨ bytes? P w' = none

/-- What is kept of a project whose map was synced last. -/
structure Kept (p : Node) (m : Dependencies) (w : Workspace) : Prop where
  /-- The graph is in order. -/
  sound : w.Sound
  /-- The project is known. -/
  handle : Handle p w
  /-- The project stands in the graph. -/
  stored : p.id ∈ Assoc.keys w.tables.nodes
  /-- The map has every name once. -/
  proper : Proper m
  /-- The manifest keeps the map. -/
  entry : ∃ S, Manifest.textsOf (Manifest.syncedEntry p w) = .ok S ∧ Proper S ∧
    Assoc.same S m = true

/-- The file, where it is there, is the one that was written for the map. -/
structure Tended (P : Path) (p : Node) (m : Dependencies) (w : Workspace) : Prop
    extends Kept p m w where
  /-- The text of the file. -/
  file : ∀ {bytes}, bytes? P w = some bytes → decode bytes = .ok (render m)
  /-- The file was written for a manifest, which is still there. -/
  manifest : bytes? P w ≠ none →
    ∃ b, w.tables.node? b.id = some b ∧ b.key = Manifest.address p w.graph.instanceId

/-- Changes that leave the synced map alone keep the file what it is, if they do not touch it. -/
theorem Tended.reach (h : Tended P p m w) (hr : Reach (KeepsMap p w.graph.instanceId) w w')
    (hf : Untouched P w w') : Tended P p m w' := by
  have hstays := stays_reach h.sound hr
  have hfile {bytes : ByteArray} (hb : bytes? P w' = some bytes) : bytes? P w = some bytes := by
    rcases hf with hf | hf
    · exact hf.symm.trans hb
    · cases hf.symm.trans hb
  refine { sound := hr.sound h.sound, handle := h.handle.reach hr, stored := hstays.1 h.stored,
           proper := h.proper, entry := ?_, file := fun hb => h.file (hfile hb),
           manifest := fun hne => ?_ }
  · rw [syncedEntry_reach h.sound hr]
    exact h.entry
  · obtain ⟨bytes, hb⟩ := Option.ne_none_iff_exists'.mp hne
    rw [hr.instanceId_eq]
    exact hstays.2 (h.manifest (by rw [hfile hb]; exact Option.some_ne_none _))

theorem Tended.spared (h : Tended P p m w) (hr : Reach (Spares P p w.graph.instanceId) w w') :
    Tended P p m w' :=
  h.reach (hr.mono fun _ he => he.2) (.inl (bytes?_reach (hr.mono fun _ he => he.1)))

/-- A synchronisation brings the file and the synced map in step. -/
theorem Tended.synced (hP : p.pathEntry = .path P) (h : Tended P p m w)
    (hs : (sync p).run w = .ok s w') :
    Tended P p s.deps w' ∧ ∃ bytes, bytes? P w' = some bytes := by
  have hsafe : Safe .any (sync p) :=
    safe_sync Regime.declares_any (fun _ _ _ _ => trivial) fun _ _ => ⟨trivial, trivial⟩
  have hr := ((hsafe.runs w trivial).ok h.sound hs).1
  have hw' := hr.sound h.sound
  have hsynced := sync_eq_ok hP h.sound h.handle hs
  obtain ⟨b, hb⟩ := hsynced.reconciled
  obtain ⟨hstored, hkey⟩ := hb.stored hw'
  obtain ⟨S', hS', hsame'⟩ := hsynced.map
  obtain ⟨S, hS, hproper, hsame⟩ := h.entry
  have hmap : Proper S' ∧ (s.changed = false → S' = S) := by
    cases hc : s.changed with
    | true =>
        rw [hsynced.entry hc, Manifest.textsOf_ofTexts, Except.ok.injEq] at hS'
        exact ⟨hS' ▸ hb.proper.1, fun h => nomatch h⟩
    | false =>
        rw [hsynced.kept hc, hS, Except.ok.injEq] at hS'
        exact ⟨hS' ▸ hproper, fun _ => hS'.symm⟩
  have hfile : ∃ bytes, bytes? P w' = some bytes ∧ decode bytes = .ok (render s.deps) := by
    by_cases hwrite : s.changed = true ∨ bytes? P w = none
    · exact hsynced.written hwrite
    · rw [not_or, Bool.not_eq_true] at hwrite
      obtain ⟨bytes, hbytes⟩ := Option.ne_none_iff_exists'.mp hwrite.2
      refine ⟨bytes, (hsynced.left hwrite.1 hwrite.2).trans hbytes, ?_⟩
      obtain rfl := hmap.2 hwrite.1
      rw [h.file hbytes, ← render_eq hmap.1 h.proper hsame, render_eq hmap.1 hb.proper.1 hsame']
  obtain ⟨bytes, hbytes, hdecode⟩ := hfile
  refine ⟨{ sound := hw', handle := h.handle.reach hr, stored := ?_, proper := hb.proper.1,
            entry := ⟨S', hS', hmap.1, hsame'⟩, file := fun hb' => ?_,
            manifest := fun _ => ⟨b, hstored, hkey⟩ }, bytes, hbytes⟩
  · exact hw'.wellFormed.parents hstored (congrArg NodeKey.parent hkey)
  · rw [hbytes, Option.some.injEq] at hb'
    exact hb' ▸ hdecode

/-! ## Verifying -/

section

variable (hP : p.pathEntry = .path P)
include hP

/-- Verifying passes where the file holds the synced map, if what has to be written can be written. -/
theorem verify_of_holds {S : Dependencies} (hw : w.Sound) (hp : Handle p w)
    (hstored : p.id ∈ Assoc.keys w.tables.nodes)
    (hS : Manifest.textsOf (Manifest.syncedEntry p w) = .ok S) (hb : bytes? P w = some bytes)
    (hholds : Holds bytes S)
    (hs : w.graph.unsaved = true ∨
      w.tables.findNode? (Manifest.address p w.graph.instanceId) = none → w.Writable) :
    ∃ w', (verify p).run w = .ok ⟨⟩ w' := by
  obtain ⟨text, found, hd, hparse, hmatch⟩ := hholds
  have hfound : (readFile (fileIn P)).run w = .ok found w := readFile_run hb hd hparse
  have hparent (q : Node) (hq : some p = some q) : q.id ∈ Assoc.keys w.tables.nodes := by
    cases hq
    exact hstored
  have hnew : Json.ExactMembers (Option.getD (some [("deps", .obj [])]) []) := ⟨trivial, trivial⟩
  obtain ⟨b, w₁, hnode⟩ := Graph.getOrCreate_run hw hparent (by decide) hnew hs
  have hnode : (Manifest.node p).run w = .ok b w₁ := hnode
  have hentry := Manifest.syncedEntry_of_found (Manifest.node_eq_ok hw hnode).2
  have hspared := Spared.of_safe (Manifest.safe_node (declares_sparing P p w.graph.instanceId) p)
    hw hp hnode
  have hsynced : (synced p).run w = .ok S w₁ := by
    rw [synced, bind_ok hnode, Manifest.textsAt_eq, ← hentry, hspared.entry, hS]
    rfl
  refine ⟨w₁, ?_⟩
  rw [verify, bind_ok (path_run hP w), bind_ok (isFile_run _ w), isFile_fileIn, hb]
  refine (bind_ok hfound).trans ((bind_ok hsynced).trans ?_)
  rw [hmatch]
  rfl

/-- Where there is no file, verifying passes. -/
theorem verify_of_absent (hb : bytes? P w = none) : (verify p).run w = .ok ⟨⟩ w := by
  rw [verify, bind_ok (path_run hP w), bind_ok (isFile_run _ w), isFile_fileIn, hb]
  rfl

/-- Verifying passes where the file spells the map, if what has to be written can be written. -/
theorem Kept.verify_run (h : Kept p m w) (hb : bytes? P w = some bytes)
    (hd : decode bytes = .ok text) (hspells : Spells text m)
    (hs : w.graph.unsaved = true ∨
      w.tables.findNode? (Manifest.address p w.graph.instanceId) = none → w.Writable) :
    ∃ w', (verify p).run w = .ok ⟨⟩ w' := by
  obtain ⟨S, hS, hproper, hsame⟩ := h.entry
  have hspells : Spells text S := hspells.congr fun k =>
    ((Assoc.same_iff hproper h.proper).mp hsame k).symm
  obtain ⟨found, hparse, hmatch⟩ := (spells_iff hproper).mp hspells
  exact verify_of_holds hP h.sound h.handle h.stored hS hb ⟨text, found, hd, hparse, hmatch⟩ hs

/-- A file that passes spells the map. -/
theorem Kept.spells (h : Kept p m w) (hb : bytes? P w = some bytes) (hd : decode bytes = .ok text)
    (hv : (verify p).run w = .ok ⟨⟩ w') : Spells text m := by
  obtain ⟨S, hS, text', found, hd', hparse, hmatch⟩ := verify_eq_ok hP h.sound h.handle hv bytes hb
  obtain ⟨S', hS', hproper, hsame⟩ := h.entry
  rw [hS, Except.ok.injEq] at hS'
  rw [hd, Except.ok.injEq] at hd'
  subst hS' hd'
  exact ((spells_iff hproper).mpr ⟨found, hparse, hmatch⟩).congr
    ((Assoc.same_iff hproper h.proper).mp hsame)

/-- Verifying passes just where the file spells the map. -/
theorem Kept.verify_iff (h : Kept p m w) (hb : bytes? P w = some bytes)
    (hd : decode bytes = .ok text) (hs : w.Writable) :
    (∃ w', (verify p).run w = .ok ⟨⟩ w') ↔ Spells text m := by
  constructor
  · rintro ⟨w', hv⟩
    exact h.spells hP hb hd hv
  · exact fun hspells => h.verify_run hP hb hd hspells fun _ => hs

/-- Verifying what a history left passes. -/
theorem Tended.verify_run (h : Tended P p m w) (hs : w.graph.unsaved = true → w.Writable) :
    ∃ w', (verify p).run w = .ok ⟨⟩ w' := by
  cases hb : bytes? P w with
  | none => exact ⟨w, verify_of_absent hP hb⟩
  | some bytes =>
      refine h.toKept.verify_run hP hb (h.file hb) (.of_render h.proper) ?_
      rintro (hu | hnone)
      · exact hs hu
      · obtain ⟨b, hb, hk⟩ := h.manifest (by rw [hb]; exact Option.some_ne_none _)
        rw [(Tables.findNode?_eq_some h.sound.wellFormed).mpr ⟨hb, hk⟩] at hnone
        cases hnone

end

/-! ## Histories -/

/-- The map after a stage of a build: that of its synchronisation, if the stage is one. -/
def mapAfter (p : Node) (m : Dependencies) (r : StageRun) : Dependencies :=
  if r.stage = .refresh then
    match (sync p).run r.before with
    | .ok s _ => s.deps
    | .error .. => m
  else m

/-- What happened to a project, with the map that was synced last.  Every synchronisation of the
project gave its result, and nothing but them wrote the file. -/
inductive History (P : Path) (p : Node) (w₀ : Workspace) : Dependencies → Workspace → Prop
  /-- Nothing was synced yet. -/
  | start : History P p w₀ [] w₀
  /-- A request that spares the manifest, whether it failed or not. -/
  | request {m : Dependencies} {w : Workspace} (h : History P p w₀ m w) (r : Request)
      (hr : r.Spares p w) (hf : Untouched P w (r.op.after w)) : History P p w₀ m (r.op.after w)
  /-- A transaction begins. -/
  | opened {m : Dependencies} {w : Workspace} (h : History P p w₀ m w) :
      History P p w₀ m (beginTransaction.after w)
  /-- A transaction ends. -/
  | closed {m : Dependencies} {w : Workspace} (h : History P p w₀ m w) :
      History P p w₀ m (endTransaction.after w)
  /-- Files change from outside, and the file of the dependencies goes or stays. -/
  | outside {m : Dependencies} {w : Workspace} (h : History P p w₀ m w) (t : FileTree)
      (hf : Untouched P w { w with files := t }) : History P p w₀ m { w with files := t }
  /-- The file is verified. -/
  | verified {m : Dependencies} {w : Workspace} (h : History P p w₀ m w) :
      History P p w₀ m ((verify p).after w)
  /-- The project is synchronised. -/
  | synced {m : Dependencies} {w w' : Workspace} {q : Node} {s : Sync} (h : History P p w₀ m w)
      (hid : q.id = p.id) (hP : q.pathEntry = .path P) (hs : (sync q).run w = .ok s w') :
      History P p w₀ s.deps w'
  /-- The project is built with a new token, whether the build failed or not. -/
  | built {m : Dependencies} {w : Workspace} {q : Project} (h : History P p w₀ m w) (b : Bool)
      (s : Services) (name : String) (plan : Plan) (hq : q.Found name w) (hid : q.node.id = p.id)
      (hP : q.Placed P)
      (hs : ∀ r ∈ (Build.course s name plan { w with cancelled := b }).runs, r.stage = .refresh →
        ∃ report w', r.result = .ok report w') :
      History P p w₀
        ((Build.course s name plan { w with cancelled := b }).runs.foldl (mapAfter p) m)
        ((Build.launch b s name plan).after w)

/-- Synchronising goes by the identifier and the path of the project. -/
theorem sync_congr (hid : q.id = p.id) (hq : q.pathEntry = .path P) (hP : p.pathEntry = .path P) :
    sync q = sync p := by
  have hpath : path q = path p := funext fun w => (path_run hq w).trans (path_run hP w).symm
  have hnode : Manifest.node q = Manifest.node p := by
    unfold Manifest.node Graph.getOrCreate Graph.child?
    rw [Option.map_some, Option.map_some, hid]
  have hreconcile : Manifest.reconcile q = Manifest.reconcile p := by
    unfold Manifest.reconcile Manifest.declared
    rw [hnode]
  unfold sync
  rw [hreconcile, hnode, hpath]

theorem keepsMap_congr (hid : q.id = p.id) (i : String) : KeepsMap q i = KeepsMap p i := by
  funext e
  cases e <;> simp only [KeepsMap, Manifest.address, hid]

/-- A stage of a build keeps the file what it is, where a synchronisation gives its result. -/
theorem Tended.stage {c : BuildContext} {r : StageRun} (hP : p.pathEntry = .path P)
    (hc : c.project.Placed P) (hp : c.project.node.IsProject) (hid : c.project.node.id = p.id)
    (hk : c.project.node.key = p.key) (hr : r.result = (Build.runStage c r.stage).run r.before)
    (hs : r.stage = .refresh → ∃ report w', r.result = .ok report w')
    (h : Tended P p m r.before) : Tended P p (mapAfter p m r) r.after := by
  by_cases hrefresh : r.stage = .refresh
  · obtain ⟨report, w', hresult⟩ := hs hrefresh
    have hrun := hr.symm.trans hresult
    rw [hrefresh] at hrun
    obtain ⟨s, w₁, hsync, h₁⟩ := bind_eq_ok.mp hrun
    cases h₁
    rw [sync_congr hid hc.node hP] at hsync
    rw [mapAfter, if_pos hrefresh, hsync, StageRun.after, hresult]
    exact (h.synced hP hsync).1
  · have hhandle : Handle c.project.node r.before :=
      ⟨fun hm => (h.handle.key (hid ▸ hm)).trans hk.symm, hid ▸ h.handle.spent⟩
    have hsafe := Build.safe_runStage (builds_sparing hc hp r.before.graph.instanceId).carries hrefresh
    have hreach := (hsafe.runs r.before ⟨hhandle, rfl⟩).after h.sound
    have hafter : (Build.runStage c r.stage).after r.before = r.after := by
      rw [Op.after, ← hr, StageRun.after]
      cases r.result <;> rfl
    rw [mapAfter, if_neg hrefresh, ← hafter]
    refine h.spared (hreach.mono fun e he => ⟨he.1, ?_⟩)
    rw [← keepsMap_congr hid]
    exact he.2

/-- A build keeps the file what it is, where all its synchronisations give their results. -/
theorem Tended.built {q : Project} {s : Services} {name : String} {plan : Plan}
    (hP : p.pathEntry = .path P) (hq : q.Found name w) (hid : q.node.id = p.id) (hc : q.Placed P)
    (hs : ∀ r ∈ (Build.course s name plan w).runs, r.stage = .refresh →
      ∃ report w', r.result = .ok report w') (h : Tended P p m w) :
    Tended P p ((Build.course s name plan w).runs.foldl (mapAfter p) m)
      ((Build.run s name plan).after w) := by
  have hsafe := Build.safe_start (declares_sparing P p w.graph.instanceId) s name
  have hstart := h.spared ((hsafe.runs w ⟨h.handle, rfl⟩).after h.sound)
  rw [Build.after_run]
  unfold Build.course at hs ⊢
  unfold Op.after at hstart
  cases hrun : (Build.start s name).run w with
  | error e w' =>
      rw [hrun] at hstart
      exact hstart
  | ok c w' =>
      rw [hrun] at hs hstart
      obtain rfl := (Build.start_eq_ok h.sound hrun).1.unique hq
      have hk : c.project.node.key = p.key :=
        h.handle.key (hid ▸ hq.stored h.sound)
      exact Build.follow_keeps (fun hr hG hm => hm.stage hP hc (hq.isProject h.sound) hid hk hr hG)
        hs hstart

/-- Every history keeps the file what it is. -/
theorem History.tended {w₀ : Workspace} (hP : p.pathEntry = .path P) (hp : p.IsProject)
    (h₀ : Tended P p [] w₀) (h : History P p w₀ m w) : Tended P p m w := by
  induction h with
  | start => exact h₀
  | request _ r hr hf ih =>
      exact ih.reach ((r.runs_op_spares hp ih.handle hr).after ih.sound) hf
  | @opened m w _ ih =>
      exact ih.spared (.quiet (e := .depth) trivial (.depth w _))
  | closed _ ih => exact ih.spared (reach_endTransaction ih.sound)
  | outside _ t hf ih =>
      refine { sound := ⟨ih.sound.wellFormed, ih.sound.spent, ih.sound.exact⟩,
               handle := ⟨ih.handle.key, ih.handle.spent⟩, stored := ih.stored,
               proper := ih.proper, entry := ih.entry, file := fun hb => ?_,
               manifest := fun hne => ih.manifest ?_ }
      · rcases hf with hf | hf
        · exact ih.file (hf.symm.trans hb)
        · cases hf.symm.trans hb
      · rcases hf with hf | hf
        · exact hf ▸ hne
        · exact absurd hf hne
  | @verified m w _ ih =>
      have hsafe := safe_verify (declares_sparing P p w.graph.instanceId) p
      exact ih.spared ((hsafe.runs w ⟨ih.handle, rfl⟩).after ih.sound)
  | synced _ hid hq hs ih => exact (ih.synced hP (sync_congr hid hq hP ▸ hs)).1
  | @built m w q _ b s name plan hq hid hc hs ih =>
      have hcalls : KeepsFile P .calls ∧ KeepsMap p w.graph.instanceId .calls := ⟨trivial, trivial⟩
      have htoken : Tended P p m { w with cancelled := b } :=
        ih.spared (.single (.inr hcalls) (.calls w w.calls b))
      exact htoken.built hP (hq.congr rfl) hid hc hs

/-! ## No drift -/

/-- A project in a directory, of which nothing was synced yet. -/
structure Unsynced (P : Path) (p : Node) (w : Workspace) : Prop where
  /-- The graph is in order. -/
  sound : w.Sound
  /-- The node of a project. -/
  isProject : p.IsProject
  /-- The project stands in the graph. -/
  stored : w.tables.node? p.id = some p
  /-- The directory of the project. -/
  path : p.pathEntry = .path P
  /-- The manifest has no synced map. -/
  entry : Manifest.syncedEntry p w = none
  /-- There is no file. -/
  file : bytes? P w = none

theorem Unsynced.tended (h : Unsynced P p w) : Tended P p [] w where
  sound := h.sound
  handle := .of_node? h.sound h.stored
  stored := Assoc.mem_keys_of_get? h.stored
  proper := Assoc.proper_nil
  entry := ⟨[], by rw [h.entry]; rfl, Assoc.proper_nil, rfl⟩
  file hb := by rw [h.file] at hb; cases hb
  manifest hne := absurd h.file hne

/-- Nothing was synced of a new project in a directory without the file. -/
theorem unsynced_of_setup {q : Project} {name : String} {path : Path} (hw : w.Sound)
    (hnew : w.tables.findNode? ⟨none, w.graph.instanceId, .project, name⟩ = none)
    (h : (Project.setup name path).run w = .ok q w')
    (hf : bytes? (path.resolve w.files.workingDirectory) w' = none) :
    Unsynced (path.resolve w.files.workingDirectory) q.node w' := by
  obtain ⟨hfound, hplaced, -⟩ := Project.setup_eq_ok hw hnew h
  have hsafe : Safe .any (Project.setup name path) :=
    Project.safe_setup (fun _ _ => trivial) (fun _ => trivial) ..
  have hw' := ((hsafe.runs w trivial).ok hw h).1.sound hw
  exact { sound := hw', isProject := hfound.isProject hw', stored := hfound.stored hw',
          path := hplaced.node, entry := Project.syncedEntry_of_setup hw hnew h, file := hf }

/-- Whatever happened to a project in a history, verifying passes, a synchronisation leaves the file
with the reconciled map, and of all texts just those pass that spell the map synced last. -/
theorem no_drift {w₀ : Workspace} (h₀ : Unsynced P p w₀) (h : History P p w₀ m w) :
    ((w.graph.unsaved = true → w.Writable) → ∃ w', (verify p).run w = .ok ⟨⟩ w') ∧
    (∀ {s w'}, (sync p).run w = .ok s w' →
      (∃ bytes text, bytes? P w' = some bytes ∧ decode bytes = .ok text ∧
        Json.parse? text = some (.obj [("deps", .ofTexts s.deps)])) ∧
      (∃ d, (Manifest.deps p).run w' = .ok d w' ∧ Assoc.same d s.deps = true) ∧
      (Manifest.declared p).run w' = .ok s.deps w') ∧
    ∀ (t : FileTree) {bytes text}, bytes? P { w with files := t } = some bytes →
      decode bytes = .ok text → Workspace.Writable { w with files := t } →
      ((∃ w', (verify p).run { w with files := t } = .ok ⟨⟩ w') ↔ Spells text m) := by
  have ht := h.tended h₀.path h₀.isProject h₀.tended
  refine ⟨ht.verify_run h₀.path, fun {s w'} hs => ?_, fun t {bytes text} hb hd hwrite => ?_⟩
  · obtain ⟨ht', bytes, hbytes⟩ := ht.synced h₀.path hs
    have hsynced := sync_eq_ok h₀.path ht.sound ht.handle hs
    obtain ⟨b, hb⟩ := hsynced.reconciled
    have hnode := node_run hb.found hsynced.saved
    obtain ⟨hproper, hsorted⟩ := hb.proper
    refine ⟨⟨bytes, _, hbytes, ht'.file hbytes, ?_⟩, ?_, ?_⟩
    · rw [parse?_render hproper, content, hsorted]
    · obtain ⟨d, hd, hsame⟩ := hb.held
      refine ⟨d, ?_, hsame⟩
      rw [Manifest.deps, bind_ok hnode, hd]
      rfl
    · rw [Manifest.declared, bind_ok hnode]
      exact hb.union
  · have hkept : Kept p m { w with files := t } :=
      { sound := ⟨ht.sound.wellFormed, ht.sound.spent, ht.sound.exact⟩,
        handle := ⟨ht.handle.key, ht.handle.spent⟩, stored := ht.stored, proper := ht.proper,
        entry := ht.entry }
    exact hkept.verify_iff h₀.path hb hd hwrite

/-- A new project gets an intent file. -/
def filing : Op Unit := do
  let p ← Project.setup "demo" (.ofText "/work/demo")
  let _ ← writeIfChanged (.ofText "/work/demo/intent/f.ts.md") "f\n"
  let _ ← Graph.placeOf p.intent "/work/demo/intent/f.ts.md" Graph.intentKind

theorem safe_filing : Safe .any filing := by
  refine (Project.safe_setup (fun _ _ => trivial) (fun _ => trivial) ..).bind fun p => ?_
  refine (safe_writeIfChanged trivial).bind fun _ => ?_
  exact (Graph.safe_placeOf fun _ _ _ => trivial).bind fun _ => .pure _

/-- The workspace with this project. -/
@[irreducible]
def filed : Workspace := Project.spelling "f.ts.md" (filing.after Project.blank)

theorem sound_filed : filed.Sound := by
  unfold filed
  rw [Project.spelling_eq]
  exact ((safe_filing.runs _ trivial).after Project.sound_blank).sound Project.sound_blank

/-- A file declares a dependency. -/
def declaring (p file : Node) : Request := .applyDeltas p file [⟨.add, "left-pad", some "1.0.0"⟩]

/-- The project is built after its file declared a dependency. -/
def built (p file : Node) : Workspace :=
  (Build.launch false Build.compiling "demo" .default).after ((declaring p file).op.after filed)

/-- The file of the dependencies is edited. -/
def edited (P : Path) (text : String) (w : Workspace) : FileTree :=
  w.files.putAt (w.files.key (fileIn P)) (.file (FileTree.textContent text) 0)

theorem bytes?_edited (P : Path) (text : String) (w : Workspace) :
    bytes? P { w with files := edited P text w } = some text.toUTF8 := by
  have hkey : w.files.key (fileIn P) ≠ [] := by
    rw [FileTree.key_fileIn]
    simp
  change (edited P text w).bytesAt? (w.files.key (fileIn P)) = _
  rw [FileTree.bytesAt?, edited, FileTree.entryAt_putAt hkey, if_pos rfl]
  rfl

/-- The text spells the map, as a test. -/
def spellsMap (text : String) (m : Dependencies) : Bool :=
  match Json.parse? text with
  | some (.obj found) => matchesFile found m
  | _ => false

theorem spells_iff_spellsMap (hm : Proper m) : Spells text m ↔ spellsMap text m = true := by
  rw [spells_iff hm, spellsMap]
  constructor
  · rintro ⟨found, hparse, hmatch⟩
    rw [hparse]
    exact hmatch
  · intro h
    split at h
    · exact ⟨_, ‹_›, h⟩
    · cases h

/-- Nothing was synced of the project with the intent file. -/
theorem unsynced_filed {p : Project} (hp : p.Found "demo" filed) (hR : p.Placed (.ofText "/work/demo"))
    (h : ((Manifest.syncedEntry p.node filed).isNone &&
      (bytes? (.ofText "/work/demo") filed).isNone) = true) :
    Unsynced (.ofText "/work/demo") p.node filed := by
  rw [Bool.and_eq_true, Option.isNone_iff_eq_none, Option.isNone_iff_eq_none] at h
  exact { sound := sound_filed, isProject := hp.isProject sound_filed, stored := hp.stored sound_filed,
          path := hR.node, entry := h.1, file := h.2 }

/-- A text that spells the dependency, otherwise than it is written. -/
def spaced : String := "\x7b\"deps\": \x7b\"left-pad\": \"1.0.0\"\x7d\x7d"

/-- A text that spells another version of it. -/
def newer : String := "\x7b\"deps\": \x7b\"left-pad\": \"2.0.0\"\x7d\x7d"

/-- The project is built after its file declared a dependency, and synchronised, and the graph can be
written after either edit. -/
def goesThrough (p : Project) (file : Node) : Bool :=
  (bytes? (.ofText "/work/demo") ((declaring p.node file).op.after filed)).isNone &&
    Project.inPlace ((declaring p.node file).op.after filed) (fun q => q.node.id == p.node.id &&
      (Build.launch false Build.compiling "demo" .default).gives
        ((declaring p.node file).op.after filed) fun _ _ => true) &&
    (sync p.node).gives (built p.node file) fun s w => s.deps == [("left-pad", "1.0.0")] &&
      !w.graph.unsaved && [spaced, newer].all fun text =>
        Op.save.gives { w with files := edited (.ofText "/work/demo") text w } fun _ _ => true

/-- The history of the project goes on to its synchronisation. -/
theorem history_of_goesThrough {p : Project} {file : Node} (hP : p.node.pathEntry = .path (.ofText "/work/demo"))
    (h : goesThrough p file = true) :
    ∃ s w, (sync p.node).run (built p.node file) = .ok s w ∧ s.deps = [("left-pad", "1.0.0")] ∧
      History (.ofText "/work/demo") p.node filed s.deps w ∧ w.graph.unsaved = false ∧
      ∀ text ∈ [spaced, newer],
        Workspace.Writable { w with files := edited (.ofText "/work/demo") text w } := by
  simp only [goesThrough, Bool.and_eq_true, Option.isNone_iff_eq_none] at h
  obtain ⟨⟨hnone, hbuilds⟩, hsyncs⟩ := h
  obtain ⟨q, hq, hplaced, hbuilds⟩ := Project.found_of_inPlace hbuilds
  rw [Bool.and_eq_true, beq_iff_eq] at hbuilds
  obtain ⟨hid, hbuilds⟩ := hbuilds
  obtain ⟨summary, w₁, hrun, -⟩ := gives_eq_true.mp hbuilds
  obtain ⟨s, w, hs, hleft⟩ := gives_eq_true.mp hsyncs
  simp only [Bool.and_eq_true, beq_iff_eq, Bool.not_eq_true', List.all_eq_true] at hleft
  obtain ⟨⟨hdeps, hsaved⟩, hwrites⟩ := hleft
  have hdeclared : History (.ofText "/work/demo") p.node filed []
      ((declaring p.node file).op.after filed) := .request .start _ trivial (.inr hnone)
  have hbuilt := hdeclared.built false Build.compiling "demo" .default hq hid hplaced
    fun r hr _ => Build.reported_of_run hrun r hr
  refine ⟨s, w, hs, hdeps, hbuilt.synced rfl hP hs, hsaved, fun text htext => ?_⟩
  obtain ⟨⟨⟩, v, hv, -⟩ := gives_eq_true.mp (hwrites text htext)
  exact ⟨v, hv⟩

/-- The file declares a dependency, the project is built and synchronised.  Verifying passes then, and
also where the file of the dependencies is spelled otherwise, but not where it has another version. -/
theorem no_drift_sample : ∃ (p : Project) (file : Node) (s : Sync) (w : Workspace),
    (sync p.node).run (built p.node file) = .ok s w ∧ s.deps = [("left-pad", "1.0.0")] ∧
      (∃ w', (verify p.node).run w = .ok ⟨⟩ w') ∧
      (∃ w', (verify p.node).run { w with files := edited (.ofText "/work/demo") spaced w } =
        .ok ⟨⟩ w') ∧
      ¬ ∃ w', (verify p.node).run { w with files := edited (.ofText "/work/demo") newer w } =
        .ok ⟨⟩ w' := by
  have htest : Project.inPlace filed (fun p => ((Manifest.syncedEntry p.node filed).isNone &&
      (bytes? (.ofText "/work/demo") filed).isNone) &&
      (Graph.findPlaceOf p.intent "/work/demo/intent/f.ts.md" Graph.intentKind).gives filed fun o _ =>
        o.any (goesThrough p)) = true := by decide +kernel
  obtain ⟨p, hp, hplaced, htest⟩ := Project.found_of_inPlace htest
  rw [Bool.and_eq_true] at htest
  have hnew := unsynced_filed hp hplaced htest.1
  obtain ⟨o, w₀, -, hany⟩ := gives_eq_true.mp htest.2
  rw [Option.any_eq_true] at hany
  obtain ⟨file, -, hgoes⟩ := hany
  obtain ⟨s, w, hs, hdeps, hhistory, hsaved, hwritable⟩ := history_of_goesThrough hnew.path hgoes
  obtain ⟨hverify, -, hedit⟩ := no_drift hnew hhistory
  have hproper : Proper s.deps := by
    rw [hdeps]
    simp [Proper, Assoc.keys]
  have hspaced := hedit (edited (.ofText "/work/demo") spaced w) (bytes?_edited ..) (decode_toUTF8 _)
    (hwritable _ (by simp))
  have hnewer := hedit (edited (.ofText "/work/demo") newer w) (bytes?_edited ..) (decode_toUTF8 _)
    (hwritable _ (by simp))
  rw [spells_iff_spellsMap hproper, hdeps] at hspaced hnewer
  obtain ⟨hfits, hdiffers⟩ : spellsMap (Text.unifyLineBreaks spaced) [("left-pad", "1.0.0")] = true ∧
      spellsMap (Text.unifyLineBreaks newer) [("left-pad", "1.0.0")] = false := by decide +kernel
  refine ⟨p, file, s, w, hs, hdeps, hverify fun hu => ?_, hspaced.mpr hfits, fun hpasses => ?_⟩
  · rw [hsaved] at hu
    cases hu
  · rw [hnewer.mp hpasses] at hdiffers
    cases hdiffers

/-- Where the manifest is given another synced map, the file differs from it. -/
theorem Tended.differs {b b' : Node} {u : Dependencies} (hP : p.pathEntry = .path P)
    (h : Tended P p m w) (hb : bytes? P w = some bytes)
    (hfind : w.tables.findNode? (Manifest.address p w.graph.instanceId) = some b)
    (hset : (Graph.setJson b [("synced", .ofTexts u)]).run w = .ok b' w') (hu : Proper u)
    {k : String} (hne : Assoc.get? k m ≠ Assoc.get? k u) {w'' : Workspace} :
    (verify p).run w' ≠ .ok ⟨⟩ w'' := by
  intro hv
  obtain ⟨hstored, hkey⟩ := (Tables.findNode?_eq_some h.sound.wellFormed).mp hfind
  obtain ⟨-, hk, hms, ht, hw', hi⟩ := Manifest.setJson_eq_ok h.sound hstored hset
  have hr : Runs (KeepsFile P) w (Graph.setJson b [("synced", .ofTexts u)]) _ :=
    Graph.runs_setContent fun _ _ _ _ => trivial
  have hreach := (hr.ok h.sound hset).1
  have hfind' := Manifest.found_of_put hw' (by rw [hk, hkey, hi]) ht
  have hentry : Manifest.syncedEntry p w' = some (.ofTexts u) := by
    rw [Manifest.syncedEntry_of_found hfind', hms]
    rfl
  have hparent : b'.parent = some p.id := congrArg NodeKey.parent (hk.trans hkey)
  have hkept : Kept p u w' :=
    { sound := hw', handle := h.handle.reach hreach,
      stored := hw'.wellFormed.parents ((Tables.findNode?_eq_some hw'.wellFormed).mp hfind').1
        hparent,
      proper := hu,
      entry := ⟨u, by rw [hentry]; exact Manifest.textsOf_ofTexts u, hu, Assoc.same_self hu⟩ }
  have hbytes := (bytes?_reach hreach).trans hb
  have hspells := hkept.spells hP hbytes (h.file hb) hv
  exact hne ((Spells.of_render h.proper).unique hspells k)

/-- A project that is synchronised, and whose manifest is then given another synced map. -/
def resynced : Op Project := do
  let p ← Project.setup "demo" (.ofText "/work/demo")
  let _ ← sync p.node
  let _ ← Graph.setJson (← Manifest.node p.node) [("synced", .ofTexts [("x", "1.0.0")])]
  return p

/-- Verifying fails although only the synchronisation wrote the file. -/
theorem differs_resynced : ∃ p w, resynced.run Project.blank = .ok p w ∧
    ∀ w', (verify p.node).run w ≠ .ok ⟨⟩ w' := by
  obtain ⟨hnew, hfile, hok, hdeps⟩ :
      Project.blank.tables.findNode? ⟨none, Project.blank.graph.instanceId, .project, "demo"⟩ = none ∧
      bytes? ((Path.ofText "/work/demo").resolve Project.blank.files.workingDirectory) Project.sample =
        none ∧
      resynced.gives Project.blank (fun _ _ => true) = true ∧
      (Project.setup "demo" (.ofText "/work/demo") >>= fun p => sync p.node).gives Project.blank
        (fun s _ => s.deps == []) = true := by decide +kernel
  obtain ⟨p, w, hrun, -⟩ := gives_eq_true.mp hok
  obtain ⟨p', hp⟩ := Project.setup_blank
  obtain ⟨P, hnew⟩ : ∃ P, Unsynced P p'.node Project.sample :=
    ⟨_, unsynced_of_setup Project.sound_blank hnew hp hfile⟩
  have hsteps := hrun
  rw [resynced, bind_ok hp] at hsteps
  obtain ⟨s, w₁, hs, h₁⟩ := bind_eq_ok.mp hsteps
  obtain ⟨b, w₂, hb, h₂⟩ := bind_eq_ok.mp h₁
  obtain ⟨b', w₃, hset, h₃⟩ := bind_eq_ok.mp h₂
  cases h₃
  obtain ⟨s', w', hs', hempty⟩ := gives_eq_true.mp hdeps
  rw [bind_ok hp, hs] at hs'
  cases hs'
  obtain ⟨ht, bytes, hbytes⟩ := hnew.tended.synced hnew.path hs
  have hsafe := Manifest.safe_node (declares_sparing P p.node w₁.graph.instanceId) p.node
  have hreach := ((hsafe.runs w₁ ⟨ht.handle, rfl⟩).ok ht.sound hb).1
  have hspared := Spared.of_reach ht.sound hreach
  have hfind := (Manifest.node_eq_ok ht.sound hb).2
  refine ⟨p, w, hrun, fun v => ?_⟩
  refine (ht.spared hreach).differs hnew.path (hspared.bytes.trans hbytes) hfind hset ?_ (k := "x") ?_
  · simp [Proper, Assoc.keys]
  · rw [beq_iff_eq.mp hempty]
    decide

end DepsFile

end IntentBuild
