import IntentBuild.Proofs.Dependency.Reconciler
import IntentBuild.Proofs.Dependency.Sparing
import IntentBuild.Proofs.Json.RoundTrip
import IntentBuild.Proofs.Operation.Writing

/-!
# Synchronising the file of the dependencies

In any workspace, reconciling leaves a manifest whose map is the union of what the files declare
(`Manifest.Reconciled`), and writing the synced map does not change that union.  A synchronisation
that succeeds leaves the file, the synced map and the manifest in step (`DepsFile.Synced`).
-/

namespace IntentBuild

open Op
open Assoc (Proper)

namespace Manifest

/-! ## The union in any workspace -/

/-- The version that a node declares for a name, or why it cannot be told. -/
def versionAt (t : Tables) (id name : String) : Except Failure (Option String) :=
  match t.node? id with
  | some n => declaredVersion? n name
  | none => .ok none

/-- The version that a node declares for a name, where it can be told. -/
def told (t : Tables) (id name : String) : Option String := (versionAt t id name).toOption.join

variable {p b b' : Node} {u u' : Dependencies} {w w' : Workspace}

theorem versionOf_eq (e : Edge) (w : Workspace) :
    (versionOf e).run w = (lift (fun f => f) (versionAt w.tables e.source e.name)).run w := by
  change (match w.tables.node? e.source with
    | some n => lift (fun f => f) (declaredVersion? n e.name)
    | none => pure none : Op (Option String)).run w = _
  rw [versionAt]
  cases w.tables.node? e.source <;> rfl

/-- The fold over edges gives the union of what stands behind them, if all of it can be told. -/
theorem raise_eq_ok {l : List Edge} :
    (l.foldlM (fun u e => return raise u e.name (← versionOf e) : Dependencies → Edge → Op _) u).run
        w = .ok u' w' ↔
      w' = w ∧ (∀ e ∈ l, ∃ v, versionAt w.tables e.source e.name = .ok v) ∧
        u' = raiseAll u (said (told w.tables) (l.map fun e => (e.source, e.name))) := by
  induction l generalizing u with
  | nil =>
      constructor
      · intro h
        cases h
        simp [raiseAll, said]
      · rintro ⟨rfl, -, rfl⟩
        rfl
  | cons e l ih =>
      rw [List.foldlM_cons]
      have hversion := versionOf_eq e w
      cases hv : versionAt w.tables e.source e.name with
      | error f =>
          rw [hv] at hversion
          rw [bind_error (bind_error hversion)]
          simp [hv]
      | ok v =>
          rw [hv] at hversion
          have htold : told w.tables e.source e.name = v := by
            rw [told, hv]
            rfl
          have hstep : (do return raise u e.name (← versionOf e) : Op Dependencies).run w =
              .ok (raise u e.name v) w := bind_ok hversion
          rw [bind_ok hstep]
          refine ih.trans ?_
          simp [hv, raiseAll, said, htold]

theorem unionOf_eq_ok :
    (unionOf b).run w = .ok u w' ↔
      w' = w ∧ (∀ q ∈ pointers w.tables b.id, ∃ v, versionAt w.tables q.1 q.2 = .ok v) ∧
        u = union (told w.tables) (pointers w.tables b.id) := by
  have hedges : (edges b).run w = .ok (w.tables.edgesTo b.id (some .dependsOn)) w := rfl
  have hpointers : (∀ q ∈ pointers w.tables b.id, ∃ v, versionAt w.tables q.1 q.2 = .ok v) ↔
      ∀ e ∈ w.tables.edgesTo b.id (some .dependsOn),
        ∃ v, versionAt w.tables e.source e.name = .ok v := by
    simp [pointers]
  rw [unionOf, bind_ok hedges, bind_eq_ok, hpointers]
  constructor
  · rintro ⟨u', w₁, h, hu⟩
    obtain ⟨rfl, htold, rfl⟩ := raise_eq_ok.mp h
    cases hu
    exact ⟨rfl, htold, rfl⟩
  · rintro ⟨rfl, htold, rfl⟩
    exact ⟨_, _, raise_eq_ok.mpr ⟨rfl, htold, rfl⟩, rfl⟩

/-- Where the manifest is put in place of itself, and declares what it declared or what the union
says, the union stays. -/
theorem unionOf_put (h : (unionOf b).run w = .ok u w) (hid : b'.id = b.id)
    (ht : w'.tables = w.tables.putNode b')
    (hv : ∀ k, declaredVersion? b' k = versionAt w.tables b.id k ∨
      declaredVersion? b' k = .ok (Assoc.get? k u)) :
    (unionOf b').run w' = .ok u w' := by
  obtain ⟨-, htold, rfl⟩ := unionOf_eq_ok.mp h
  have hps : pointers w'.tables b'.id = pointers w.tables b.id := by
    rw [ht, hid]
    exact pointers_congr rfl _
  have hversion (s k : String) : versionAt w'.tables s k =
      if s = b.id then declaredVersion? b' k else versionAt w.tables s k := by
    rw [versionAt, ht, Tables.node?_putNode, hid]
    by_cases hs : s = b.id
    · simp [hs]
    · simp [hs, versionAt]
  refine unionOf_eq_ok.mpr ⟨rfl, fun q hq => ?_, ?_⟩
  · rw [hps] at hq
    rw [hversion]
    split
    · rename_i hs
      rcases hv q.2 with h | h
      · rw [h, ← hs]
        exact htold q hq
      · exact ⟨_, h⟩
    · exact htold q hq
  · rw [hps]
    refine (union_settle fun q hq => ?_).symm
    by_cases hs : q.1 = b.id
    · rw [told, hversion, if_pos hs]
      rcases hv q.2 with h | h
      · exact .inl (by rw [h, told, hs])
      · exact .inr (by rw [h]; rfl)
    · exact .inl (by rw [told, hversion, if_neg hs, told])

/-! ## Reconciling in any workspace -/

/-- The map of the manifest is the union of what the files declare. -/
structure Reconciled (p b : Node) (u : Dependencies) (w : Workspace) : Prop where
  /-- The manifest of the project. -/
  found : w.tables.findNode? (address p w.graph.instanceId) = some b
  /-- The union of what the files declare. -/
  union : (unionOf b).run w = .ok u w
  /-- The manifest holds the union. -/
  held : ∃ m, textsAt "deps" b = .ok m ∧ Assoc.same m u = true

namespace Reconciled

theorem proper (h : Reconciled p b u w) : Proper u ∧ Text.sortByKey u = u := by
  obtain ⟨-, -, rfl⟩ := unionOf_eq_ok.mp h.union
  exact ⟨proper_union, Text.sortByKey_sortByKey _⟩

/-- Only the tables count. -/
theorem congr (h : Reconciled p b u w) (ht : w'.tables = w.tables)
    (hi : w'.graph.instanceId = w.graph.instanceId) : Reconciled p b u w' := by
  obtain ⟨-, htold, hu⟩ := unionOf_eq_ok.mp h.union
  refine ⟨by rw [ht, hi]; exact h.found, unionOf_eq_ok.mpr ⟨rfl, ?_, ?_⟩, h.held⟩
  · rw [ht]
    exact htold
  · rw [ht]
    exact hu

theorem stored (h : Reconciled p b u w) (hw : w.Sound) :
    w.tables.node? b.id = some b ∧ b.key = address p w.graph.instanceId :=
  (Tables.findNode?_eq_some hw.wellFormed).mp h.found

end Reconciled

/-- The manifest is read or made, and stays the one that is found. -/
theorem node_eq_ok (hw : w.Sound) (h : (node p).run w = .ok b w') :
    w'.Sound ∧ w'.tables.findNode? (address p w'.graph.instanceId) = some b := by
  obtain ⟨hr, hf⟩ := (runs_node Regime.declares_any p w).ok hw h
  have hw' := hr.sound hw
  rw [hr.instanceId_eq]
  exact ⟨hw', (Tables.findNode?_eq_some hw'.wellFormed).mpr (hf.node? hw.wellFormed)⟩

/-- The members of a stored node are set. -/
theorem setJson_eq_ok {n n' : Node} {ms : Members} (hw : w.Sound)
    (hn : w.tables.node? n.id = some n) (h : (Graph.setJson n ms).run w = .ok n' w') :
    n'.id = n.id ∧ n'.key = n.key ∧ n'.members = ms ∧ w'.tables = w.tables.putNode n' ∧
      w'.Sound ∧ w'.graph.instanceId = w.graph.instanceId := by
  have hset : Runs Event.Any w (Graph.setJson n ms) _ :=
    Graph.runs_setContent fun _ _ _ _ => trivial
  obtain ⟨hr, old, ho, hrev, ht⟩ := hset.ok hw h
  rw [hn, Option.some.injEq] at ho
  subst ho
  exact ⟨hrev.id, hrev.key, by rw [Node.members, hrev.json]; rfl, ht, hr.sound hw, hr.instanceId_eq⟩

/-- The manifest in place of itself is found. -/
theorem found_of_put (hw' : w'.Sound)
    (hk : b'.key = address p w'.graph.instanceId) (ht : w'.tables = w.tables.putNode b') :
    w'.tables.findNode? (address p w'.graph.instanceId) = some b' := by
  refine (Tables.findNode?_eq_some hw'.wellFormed).mpr ⟨?_, hk⟩
  rw [ht, Tables.node?_putNode, if_pos rfl]

/-- Reconciling leaves a manifest whose map is the union. -/
theorem reconcile_eq_ok (hw : w.Sound) (h : (reconcile p).run w = .ok u w') :
    ∃ b, Reconciled p b u w' := by
  obtain ⟨b, w₁, hb, h₁⟩ := bind_eq_ok.mp h
  obtain ⟨hw₁, hfind⟩ := node_eq_ok hw hb
  obtain ⟨u', w₂, hdeclared, h₂⟩ := bind_eq_ok.mp h₁
  obtain ⟨b', w₃, hb', hu⟩ := bind_eq_ok.mp hdeclared
  rw [show (node p).run w₁ = .ok b w₁ from Graph.getOrCreate_again hw hb] at hb'
  cases hb'
  obtain ⟨rfl, -, hunion⟩ := unionOf_eq_ok.mp hu
  obtain ⟨hstored, hkey⟩ := (Tables.findNode?_eq_some hw₁.wellFormed).mp hfind
  cases hholds : holds "deps" b u' with
  | true =>
      rw [hholds] at h₂
      cases h₂
      obtain ⟨m, hm, hsame⟩ := textsAt_of_holds hholds
      exact ⟨b, hfind, hu, m, hm, hsame⟩
  | false =>
      rw [hholds] at h₂
      cases hlists : listsNames "deps" b with
      | false => rw [hlists] at h₂; cases h₂
      | true =>
          rw [hlists] at h₂
          have hset : (do
            let _ ← Graph.setJson b (withTexts "deps" b u')
            return u' : Op Dependencies).run w₂ = .ok u w' := h₂
          obtain ⟨b', w₃, hset, h₃⟩ := bind_eq_ok.mp hset
          cases h₃
          obtain ⟨hid, hk, hms, ht, hw', hi⟩ := setJson_eq_ok hw₁ hstored hset
          have htexts : textsAt "deps" b' = .ok u := textsAt_of_set hms
          refine ⟨b', ?_, ?_, u, htexts, ?_⟩
          · exact found_of_put hw' (by rw [hk, hkey, hi]) ht
          · exact unionOf_put hu hid ht fun k => .inr (declaredVersion?_eq htexts k)
          · rw [hunion]
            exact Assoc.same_self proper_union

/-- Setting another member of the manifest changes nothing about its map or the union. -/
theorem Reconciled.setOther {key : String} {v : Json} {ms : Members} (h : Reconciled p b u w) (hw : w.Sound)
    (hms : ms = Assoc.set key v b.members) (hkey : "deps" ≠ key)
    (hset : (Graph.setJson b ms).run w = .ok b' w') : w'.Sound ∧ Reconciled p b' u w' := by
  obtain ⟨hstored, hk⟩ := h.stored hw
  obtain ⟨hid, hk', hms', ht, hw', hi⟩ := setJson_eq_ok hw hstored hset
  have hdeps : Assoc.get? "deps" b'.members = Assoc.get? "deps" b.members := by
    rw [hms', hms, Assoc.get?_set_other hkey]
  obtain ⟨m, hm, hsame⟩ := h.held
  refine ⟨hw', ?_, ?_, m, ?_, hsame⟩
  · exact found_of_put hw' (by rw [hk', hk, hi]) ht
  · refine unionOf_put h.union hid ht fun k => .inl ?_
    rw [versionAt, hstored]
    simp only [declaredVersion?, hdeps]
  · rw [textsAt, hdeps]
    exact hm

/-! ## The synced map -/

/-- The map of texts that a member of a node is, empty if the member is absent. -/
def textsOf : Option Json → Except Failure Dependencies
  | none => .ok []
  | some (.obj ms) =>
      match Json.texts? ms with
      | some ts => .ok ts
      | none => .error .illTyped
  | some _ => .error .illTyped

theorem textsAt_eq (key : String) (n : Node) :
    textsAt key n = textsOf (Assoc.get? key n.members) := by
  unfold textsAt textsOf
  rcases Assoc.get? key n.members with _ | (_ | _ | _ | _ | _ | _ | ms) <;> rfl

theorem textsOf_ofTexts (m : Dependencies) : textsOf (some (.ofTexts m)) = .ok m := by
  simp only [Json.ofTexts, textsOf, texts?_ofTexts]

theorem syncedEntry_of_found (h : w.tables.findNode? (address p w.graph.instanceId) = some b) :
    syncedEntry p w = Assoc.get? "synced" b.members := by
  rw [syncedEntry, h, Option.bind_some]

end Manifest

namespace DepsFile

variable {P : Path} {p : Node} {m u : Dependencies} {w w' : Workspace}

/-- The bytes spell an object that holds exactly a map. -/
def Holds (bytes : ByteArray) (deps : Dependencies) : Prop :=
  ∃ text found, decode bytes = .ok text ∧ Json.parse? text = some (.obj found) ∧
    matchesFile found deps = true

/-- Where the file is there, it holds the synced map. -/
def Agrees (P : Path) (p : Node) (w : Workspace) : Prop :=
  ∀ bytes, bytes? P w = some bytes →
    ∃ m, Manifest.textsOf (Manifest.syncedEntry p w) = .ok m ∧ Holds bytes m

/-- No name stands twice in the synced map. -/
def Distinct (p : Node) (w : Workspace) : Prop :=
  ∀ m, Manifest.textsOf (Manifest.syncedEntry p w) = .ok m → Proper m

theorem Spared.agrees (h : Spared P p w w') (hw : Agrees P p w) : Agrees P p w' := by
  intro bytes hb
  rw [h.bytes] at hb
  rw [h.entry]
  exact hw bytes hb

theorem Spared.distinct (h : Spared P p w w') (hw : Distinct p w) : Distinct p w' := by
  intro m hm
  rw [h.entry] at hm
  exact hw m hm

/-! ## The text of the file -/

theorem lossless_content (hu : Proper u) : (Json.obj (content u)).Lossless := by
  refine ⟨?_, Json.lossless_ofTexts (Text.proper_sortByKey hu), trivial⟩
  simp [Proper, content]

theorem parse?_render (hu : Proper u) : Json.parse? (render u) = some (.obj (content u)) :=
  Json.parse?_render .pretty (lossless_content hu).tidy

theorem matchesFile_content (u m : Dependencies) :
    matchesFile (content u) m = Assoc.same (Text.sortByKey u) m := by
  simp only [content, Json.ofTexts, matchesFile, Manifest.texts?_ofTexts]

/-- What is written for a map holds every map that is the same. -/
theorem holds_of_render {bytes : ByteArray} (hb : decode bytes = .ok (render u)) (hu : Proper u)
    (hm : Proper m) (hsame : Assoc.same m u = true) : Holds bytes m := by
  refine ⟨_, _, hb, parse?_render hu, ?_⟩
  rw [matchesFile_content]
  refine (Assoc.same_iff (Text.proper_sortByKey hu) hm).mpr fun k => ?_
  rw [Text.get?_sortByKey hu, (Assoc.same_iff hm hu).mp hsame k]

theorem decode_wrote {t t' : FileTree} {q : Path} (h : t.Wrote t' q (render u)) (hu : Proper u) :
    ∃ b, t'.bytesAt? (t.key q) = some b ∧ decode b = .ok (render u) := by
  obtain ⟨b, hb, hd⟩ := h.bytes
  exact ⟨b, hb, hd.trans (congrArg _ (Json.unifyLineBreaks_render .pretty (lossless_content hu).tidy))⟩

/-! ## Verifying -/

theorem directory_run (hP : p.pathEntry = .path P) (w : Workspace) :
    (directory p).run w = .ok (P.child ".intentcode") w :=
  bind_ok (Graph.path?_run hP w)

theorem path_run (hP : p.pathEntry = .path P) (w : Workspace) :
    (path p).run w = .ok (fileIn P) w :=
  bind_ok (directory_run hP w)

theorem isFile_fileIn (P : Path) (w : Workspace) :
    w.files.isFile (fileIn P) = (bytes? P w).isSome := by
  rw [Bool.eq_iff_iff, FileTree.isFile_iff, Option.isSome_iff_exists]
  rfl

/-- The synced map is read, and nothing about it or the file changes. -/
theorem synced_eq_ok (P : Path) (hw : w.Sound) (hp : Handle p w)
    (h : (synced p).run w = .ok m w') :
    Manifest.textsOf (Manifest.syncedEntry p w) = .ok m ∧ Spared P p w w' := by
  have hspared := Spared.of_safe (safe_synced (declares_sparing P p w.graph.instanceId) p) hw hp h
  refine ⟨?_, hspared⟩
  obtain ⟨b, w₁, hb, hm⟩ := bind_eq_ok.mp h
  obtain ⟨-, hfind⟩ := Manifest.node_eq_ok hw hb
  have hentry := Manifest.syncedEntry_of_found hfind
  rw [← hspared.entry]
  cases ht : Manifest.textsAt "synced" b with
  | error e => rw [ht] at hm; cases hm
  | ok m' =>
      rw [ht] at hm
      cases hm
      rw [hentry, ← Manifest.textsAt_eq, ht]

theorem readFile_eq_ok {q : Path} {found : Members} (h : (readFile q).run w = .ok found w') :
    w' = w ∧ ∃ bytes text, w.files.bytesAt? (w.files.key q) = some bytes ∧
      decode bytes = .ok text ∧ Json.parse? text = some (.obj found) := by
  refine ⟨(reader_readFile q).eq h, ?_⟩
  obtain ⟨t, w₁, ht, h₁⟩ := bind_eq_ok.mp h
  cases ht
  obtain ⟨bytes, w₂, hb, h₂⟩ := bind_eq_ok.mp h₁
  obtain ⟨text, w₃, htext, h₃⟩ := bind_eq_ok.mp h₂
  cases hr : w.files.readBytes q with
  | error e => rw [hr] at hb; cases hb
  | ok bytes' =>
      rw [hr] at hb
      cases hb
      cases hd : decode bytes with
      | error e => rw [hd] at htext; cases htext
      | ok text' =>
          rw [hd] at htext
          cases htext
          refine ⟨bytes, text, FileTree.readBytes_eq_ok.mp hr, hd, ?_⟩
          unfold objectOf at h₃
          cases hp : Json.parse? text with
          | none => rw [hp] at h₃; cases h₃
          | some v =>
              rw [hp] at h₃
              cases v <;> cases h₃
              rfl

/-- A file that was verified holds the synced map. -/
theorem verify_eq_ok (hP : p.pathEntry = .path P) (hw : w.Sound) (hp : Handle p w)
    (h : (verify p).run w = .ok ⟨⟩ w') : Agrees P p w := by
  intro bytes hb
  rw [verify, bind_ok (path_run hP w), bind_ok (isFile_run _ w), isFile_fileIn, hb] at h
  obtain ⟨found, w₁, hfound, h₁⟩ := bind_eq_ok.mp h
  obtain ⟨rfl, bytes', text, hb', hd, hparse⟩ := readFile_eq_ok hfound
  obtain ⟨m, w₂, hm, h₂⟩ := bind_eq_ok.mp h₁
  obtain ⟨htexts, -⟩ := synced_eq_ok P hw hp hm
  rw [show bytes? P w₁ = some bytes' from hb', Option.some.injEq] at hb
  subst hb
  refine ⟨m, htexts, text, found, hd, hparse, ?_⟩
  cases hmatch : matchesFile found m with
  | true => rfl
  | false => rw [hmatch] at h₂; cases h₂

/-! ## Synchronising -/

/-- What a synchronisation leaves that succeeds. -/
structure Synced (P : Path) (p : Node) (w : Workspace) (s : Sync) (w' : Workspace) : Prop where
  /-- The file is the one in the directory of the project. -/
  path : s.path = fileIn P
  /-- The manifest holds the union of what the files declare. -/
  reconciled : ∃ b, Manifest.Reconciled p b s.deps w'
  /-- A change is kept as the synced map. -/
  entry : s.changed = true → Manifest.syncedEntry p w' = some (.ofTexts s.deps)
  /-- Without a change the synced map stays. -/
  kept : s.changed = false → Manifest.syncedEntry p w' = Manifest.syncedEntry p w
  /-- The synced map is the union. -/
  map : ∃ m, Manifest.textsOf (Manifest.syncedEntry p w') = .ok m ∧ Assoc.same m s.deps = true
  /-- Where there is a change, or no file, the file is written. -/
  written : s.changed = true ∨ bytes? P w = none →
    ∃ bytes, bytes? P w' = some bytes ∧ decode bytes = .ok (render s.deps)
  /-- Otherwise the file stays. -/
  left : s.changed = false → bytes? P w ≠ none → bytes? P w' = bytes? P w
  /-- Nothing is left to save. -/
  saved : w'.graph.depth = 0 → w'.graph.unsaved = false

/-- Raising the package file changes no other file. -/
theorem update_eq_ok {q : Path} {b : Bool} (h : (Package.update q u).run w = .ok b w') :
    ∃ t, w' = { w with files := t } ∧ t.workingDirectory = w.files.workingDirectory ∧
      ∀ k, k ≠ w.files.key q → t.bytesAt? k = w.files.bytesAt? k := by
  rw [Package.update, bind_ok (isFile_run q w)] at h
  cases hf : w.files.isFile q with
  | false =>
      rw [hf] at h
      cases h
      exact ⟨_, rfl, rfl, fun _ _ => rfl⟩
  | true =>
      rw [hf] at h
      obtain ⟨data, w₁, hdata, h₁⟩ := bind_eq_ok.mp h
      obtain rfl := (reader_readObject q).eq hdata
      obtain ⟨⟨raised, changed⟩, w₂, hraised, h₂⟩ := bind_eq_ok.mp h₁
      obtain rfl := (Reader.lift _ _).eq hraised
      cases changed with
      | false =>
          cases h₂
          exact ⟨_, rfl, rfl, fun _ _ => rfl⟩
      | true =>
          obtain ⟨b', w₃, hwrite, h₃⟩ := bind_eq_ok.mp h₂
          cases h₃
          obtain ⟨t, rfl, ht⟩ := writeIfChanged_eq_ok hwrite
          exact ⟨t, rfl, ht.workingDirectory, ht.other⟩

theorem key_package_ne (t : FileTree) (P : Path) :
    t.key ((fileIn P).parent.parent.child "package.json") ≠ t.key (fileIn P) := by
  have hparent : (fileIn P).parent.parent = P := by
    rw [fileIn_eq]
    simp [Path.parent, Path.below]
  rw [hparent, t.key_fileIn, Path.child_name P (by decide), t.key_below P (by decide)]
  simp

/-- The file is written, and only files change. -/
theorem write_eq_ok (hu : Proper u) (h : (write (fileIn P) u).run w = .ok ⟨⟩ w') :
    w'.graph = w.graph ∧
      ∃ bytes, bytes? P w' = some bytes ∧ decode bytes = .ok (render u) := by
  obtain ⟨b, w₁, hwrite, h₁⟩ := bind_eq_ok.mp h
  obtain ⟨t, rfl, ht⟩ := writeIfChanged_eq_ok hwrite
  obtain ⟨b', w₂, hupdate, h₂⟩ := bind_eq_ok.mp h₁
  cases h₂
  obtain ⟨t', rfl, hwd, hother⟩ := update_eq_ok hupdate
  refine ⟨rfl, ?_⟩
  obtain ⟨bytes, hb, hd⟩ := decode_wrote ht hu
  refine ⟨bytes, ?_, hd⟩
  have hkey : t'.key (fileIn P) = t.key (fileIn P) := FileTree.key_congr hwd _
  have hkey' : t.key (fileIn P) = w.files.key (fileIn P) :=
    FileTree.key_congr ht.workingDirectory _
  change t'.bytesAt? (t'.key (fileIn P)) = some bytes
  rw [hkey, hother _ (Ne.symm (key_package_ne t P)), hkey']
  exact hb

theorem isSynced_iff {b : Node} {u : Dependencies} (h : isSynced b u = true) :
    ∃ m, Manifest.textsAt "synced" b = .ok m ∧ Assoc.same m u = true := by
  unfold isSynced at h
  split at h
  · exact Manifest.textsAt_of_holds h
  · rename_i hhas
    rw [Bool.not_eq_true, Assoc.has_eq_false_iff, ← Assoc.get?_eq_none_iff] at hhas
    refine ⟨[], by rw [Manifest.textsAt, hhas], ?_⟩
    rw [List.isEmpty_iff.mp h]
    rfl

/-- What a synchronisation does once the manifest is reconciled. -/
theorem synced_of_rest {s : Sync} {b : Node} (hw : w.Sound) (hb : Manifest.Reconciled p b u w)
    (hsaved : w.graph.depth = 0 → w.graph.unsaved = false)
    (h : (do
      if !isSynced b u || !(← isFile (fileIn P)) then write (fileIn P) u
      if !isSynced b u then
        let _ ← Graph.setJson b (Manifest.withTexts "synced" b u)
      return { changed := !isSynced b u, path := fileIn P, deps := u } : Op Sync).run w = .ok s w') :
    Synced P p w s w' := by
  rw [bind_ok (isFile_run _ w), isFile_fileIn] at h
  have hentry := Manifest.syncedEntry_of_found hb.found
  cases hs : isSynced b u with
  | true =>
      obtain ⟨m, hm, hsame⟩ := isSynced_iff hs
      rw [Manifest.textsAt_eq, ← hentry] at hm
      rw [hs] at h
      cases hf : bytes? P w with
      | some bytes =>
          rw [hf] at h
          cases h
          refine ⟨rfl, ⟨b, hb⟩, fun h => absurd h Bool.false_ne_true, fun _ => rfl, ⟨m, hm, hsame⟩, ?_,
            fun _ _ => rfl, hsaved⟩
          simp [hf]
      | none =>
          rw [hf] at h
          obtain ⟨_, w₁, hwrite, h₁⟩ := bind_eq_ok.mp h
          cases h₁
          obtain ⟨hg, hbytes⟩ := write_eq_ok hb.proper.1 hwrite
          have hentry' : Manifest.syncedEntry p w' = Manifest.syncedEntry p w := by
            simp only [Manifest.syncedEntry, Workspace.tables, hg]
          refine ⟨rfl, ⟨b, hb.congr (by simp only [Workspace.tables, hg]) (by rw [hg])⟩,
            fun h => absurd h Bool.false_ne_true, fun _ => hentry',
            ⟨m, by rw [hentry']; exact hm, hsame⟩, fun _ => hbytes, fun _ hne => absurd hf hne, by rw [hg]; exact hsaved⟩
  | false =>
      rw [hs] at h
      obtain ⟨_, w₁, hwrite, h₁⟩ := bind_eq_ok.mp h
      obtain ⟨b', w₂, hset, h₂⟩ := bind_eq_ok.mp h₁
      cases h₂
      obtain ⟨hg, bytes, hbytes, hd⟩ := write_eq_ok hb.proper.1 hwrite
      have hsafe : Safe .any (write (fileIn P) u) := safe_write (fun _ => ⟨trivial, trivial⟩) _
      have hw₁ : w₁.Sound := ((hsafe.runs w trivial).ok hw hwrite).1.sound hw
      have hb₁ : Manifest.Reconciled p b u w₁ :=
        hb.congr (by simp only [Workspace.tables, hg]) (by rw [hg])
      obtain ⟨-, -, hms, -⟩ := Manifest.setJson_eq_ok hw₁ (hb₁.stored hw₁).1 hset
      obtain ⟨-, hb'⟩ := hb₁.setOther hw₁ rfl (by decide) hset
      have hentry' : Manifest.syncedEntry p w' = some (.ofTexts u) := by
        rw [Manifest.syncedEntry_of_found hb'.found, hms, Manifest.withTexts, Assoc.get?_set_same]
      have hsetr : Runs (KeepsFile P) w₁ (Graph.setJson b (Manifest.withTexts "synced" b u)) _ :=
        Graph.runs_setContent fun _ _ _ _ => trivial
      have hbytes' : bytes? P w' = some bytes := by
        rw [bytes?_reach (hsetr.ok hw₁ hset).1, hbytes]
      refine ⟨rfl, ⟨b', hb'⟩, fun _ => hentry', fun h => absurd h.symm Bool.false_ne_true,
        ⟨u, ?_, Assoc.same_self hb.proper.1⟩, fun _ => ⟨bytes, hbytes', hd⟩,
        fun h => absurd h.symm Bool.false_ne_true, Graph.unsaved_of_setContent hset⟩
      rw [hentry']
      exact Manifest.textsOf_ofTexts u

/-- A synchronisation that succeeds leaves everything in step. -/
theorem sync_eq_ok {s : Sync} (hP : p.pathEntry = .path P) (hw : w.Sound) (hp : Handle p w)
    (h : (sync p).run w = .ok s w') : Synced P p w s w' := by
  obtain ⟨u, w₁, hreconcile, h₁⟩ := bind_eq_ok.mp h
  obtain ⟨b₁, hb₁⟩ := Manifest.reconcile_eq_ok hw hreconcile
  have hspared₁ :=
    Spared.of_safe (Manifest.safe_reconcile (declares_sparing P p w.graph.instanceId) p) hw hp
      hreconcile
  have hr₁ := ((Manifest.safe_reconcile Regime.declares_any p).runs w trivial).ok hw hreconcile
  have hw₁ := hr₁.1.sound hw
  obtain ⟨b, w₂, hnode, h₂⟩ := bind_eq_ok.mp h₁
  have hspared₂ := Spared.of_safe (Manifest.safe_node (declares_sparing P p w₁.graph.instanceId) p)
    hw₁ (hp.reach hr₁.1) hnode
  obtain ⟨hr₂, hfound⟩ := (Manifest.runs_node Regime.declares_any p w₁).ok hw₁ hnode
  obtain ⟨rfl, ht₂⟩ := hfound.eq_old hw₁.wellFormed hb₁.found
  rw [bind_ok (path_run hP w₂)] at h₂
  have hb := hb₁.congr ht₂ hr₂.instanceId_eq
  have hsynced := synced_of_rest (hr₂.sound hw₁) hb (unsaved_of_transaction hnode) h₂
  have hspared := hspared₁.trans hspared₂
  refine { hsynced with kept := fun hc => ?_, written := fun hc => ?_, left := fun hc hf => ?_ }
  · rw [hsynced.kept hc, hspared.entry]
  · exact hsynced.written (hspared.bytes ▸ hc)
  · rw [hsynced.left hc (hspared.bytes ▸ hf), hspared.bytes]

end DepsFile

end IntentBuild
