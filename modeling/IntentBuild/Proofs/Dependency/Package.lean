import IntentBuild.Dependency.Package
import IntentBuild.Proofs.Json.RoundTrip
import IntentBuild.Proofs.Operation.Disk
import IntentBuild.Proofs.Operation.Writing
import IntentBuild.Proofs.Project
import IntentBuild.Proofs.Text.Order
import IntentBuild.Proofs.Version.Caret

/-!
# The package file is only raised

Raising goes over the versions of a map in order (`raiseEntry`).  A step touches one entry at most, and
what it writes is not raised again by the same version (`needs_caret`).  So all versions together leave
other entries and the order of the entries alone (`raised_raiseEntries`), and a second time they change
nothing (`raiseEntries_again`).

The file is written as a text that is read back as the same object, so this is what a call does to the
file (`update_only_raises`).  What it writes is a caret before a version of the map, with the least
version of that unless a blank and then an operator stand before it (`update_writes_carets`).
-/

namespace IntentBuild.Package

open Assoc (keys Proper)
open Op

variable {deps : List (String × String)} {es es' data : Members} {k v : String} {entry : Option Json}

/-! ## Entries below a version -/

/-- The entry has to be raised to the version: it is absent or null, or its least version sorts strictly
below that of the version. -/
def Below (entry : Option Json) (v : String) : Prop :=
  entry = none ∨ entry = some .null ∨ ∃ old m n, entry = some old ∧
    Version.leastOf? (entryText old) = some m ∧ Version.leastOf? v = some n ∧ n.above m = true

theorem needs_iff : needs entry v = true ↔ Below entry v := by
  unfold needs Below
  split
  · simp
  · simp
  · rename_i old hnull
    have hold : some old ≠ some .null := fun h => hnull (Option.some.inj h)
    rw [Version.isHigher_iff]
    constructor
    · rintro ⟨n, m, hn, hm, h⟩
      exact .inr (.inr ⟨old, m, n, rfl, hm, hn, Version.above_iff.mpr h⟩)
    · rintro (h | h | ⟨_, m, n, ⟨⟩, hm, hn, h⟩)
      · cases h
      · exact absurd h hold
      · exact ⟨n, m, hn, hm, Version.above_iff.mp h⟩

/-- What an entry is raised to is not below the version. -/
theorem needs_caret (v : String) : needs (some (.str ("^" ++ v))) v = false :=
  Version.isHigher_caret v

/-! ## Raising the entries -/

/-- What raising does to the entries. -/
structure Raised (deps : List (String × String)) (es es' : Members) : Prop where
  /-- No entry is removed, and those that were there stay in their order. -/
  keys : keys es <+: keys es'
  /-- The entries that the map does not name keep their values and their order. -/
  other : es'.filter (fun e => e.1 ∉ Assoc.keys deps) = es.filter fun e => e.1 ∉ Assoc.keys deps
  /-- An entry below the version of the map becomes the range from this version on. -/
  raised : ∀ {k v}, Assoc.get? k deps = some v → Below (Assoc.get? k es) v →
    Assoc.get? k es' = some (.str ("^" ++ v))
  /-- Any other entry stays. -/
  kept : ∀ {k v}, Assoc.get? k deps = some v → ¬ Below (Assoc.get? k es) v →
    Assoc.get? k es' = Assoc.get? k es

/-- The entry at a key after one step. -/
theorem get?_raiseEntry (s : Members × Bool) (dep : String × String) (k : String) :
    Assoc.get? k (raiseEntry s dep).1 =
      if k = dep.1 ∧ needs (Assoc.get? dep.1 s.1) dep.2 = true then some (.str ("^" ++ dep.2))
      else Assoc.get? k s.1 := by
  unfold raiseEntry
  by_cases h : needs (Assoc.get? dep.1 s.1) dep.2 = true
  · rw [if_pos h, Assoc.get?_set]
    simp [h]
  · simp [h]

theorem keys_raiseEntry (s : Members × Bool) (dep : String × String) :
    keys s.1 <+: keys (raiseEntry s dep).1 := by
  unfold raiseEntry
  split
  · by_cases hmem : dep.1 ∈ keys s.1
    · rw [Assoc.keys_set_of_mem hmem]
    · rw [Assoc.set_of_not_mem hmem, Assoc.keys_append]
      exact List.prefix_append ..
  · exact List.prefix_refl _

/-- A map keeps what a filter sees when a key is set that it does not see. -/
theorem filter_set {p : String → Bool} (hp : p k = false) (j : Json) (ms : Members) :
    (Assoc.set k j ms).filter (fun e => p e.1) = ms.filter fun e => p e.1 := by
  simp only [← List.filterMap_eq_filter]
  exact Assoc.filterMap_set (fun j => by simp [Option.guard, hp]) j ms

theorem filter_raiseEntry {p : String → Bool} (s : Members × Bool) {dep : String × String}
    (hp : p dep.1 = false) :
    (raiseEntry s dep).1.filter (fun e => p e.1) = s.1.filter fun e => p e.1 := by
  unfold raiseEntry
  split
  · exact filter_set hp ..
  · rfl

section

variable {ds : List (String × String)} {s : Members × Bool}

theorem keys_foldl (ds : List (String × String)) (s : Members × Bool) :
    keys s.1 <+: keys (ds.foldl raiseEntry s).1 := by
  induction ds generalizing s with
  | nil => exact List.prefix_refl _
  | cons d ds ih => exact (keys_raiseEntry s d).trans (ih _)

theorem filter_foldl {p : String → Bool} (hp : ∀ d ∈ ds, p d.1 = false) (s : Members × Bool) :
    (ds.foldl raiseEntry s).1.filter (fun e => p e.1) = s.1.filter fun e => p e.1 := by
  induction ds generalizing s with
  | nil => rfl
  | cons d ds ih =>
      rw [List.foldl_cons, ih fun d' hd => hp d' (.tail _ hd)]
      exact filter_raiseEntry s (hp d (.head _))

/-- The entry at a key after all steps. -/
theorem get?_foldl (hds : Proper ds) (s : Members × Bool) (k : String) :
    Assoc.get? k (ds.foldl raiseEntry s).1 =
      match Assoc.get? k ds with
      | none => Assoc.get? k s.1
      | some v => if needs (Assoc.get? k s.1) v then some (.str ("^" ++ v)) else Assoc.get? k s.1 := by
  induction ds generalizing s with
  | nil => rfl
  | cons d ds ih =>
      obtain ⟨k', v⟩ := d
      obtain ⟨hnew, hds⟩ := Assoc.proper_cons.mp hds
      rw [List.foldl_cons, ih hds, get?_raiseEntry]
      by_cases hk : k = k'
      · subst hk
        rw [Assoc.get?_cons_same, Assoc.get?_eq_none_iff.mpr hnew]
        simp
      · rw [Assoc.get?_cons_other (Ne.symm hk)]
        simp [hk]

/-- Something changes just where one of the entries has to be raised. -/
theorem changed_foldl (hds : Proper ds) (s : Members × Bool) :
    (ds.foldl raiseEntry s).2 = true ↔
      s.2 = true ∨ ∃ d ∈ ds, needs (Assoc.get? d.1 s.1) d.2 = true := by
  induction ds generalizing s with
  | nil => simp
  | cons d ds ih =>
      obtain ⟨hnew, hds⟩ := Assoc.proper_cons.mp hds
      have hrest : (∃ d' ∈ ds, needs (Assoc.get? d'.1 (raiseEntry s d).1) d'.2 = true) ↔
          ∃ d' ∈ ds, needs (Assoc.get? d'.1 s.1) d'.2 = true := by
        refine exists_congr fun d' => and_congr_right fun hd' => ?_
        have hne : d'.1 ≠ d.1 := fun h => hnew (h ▸ Assoc.mem_keys_of_mem hd')
        rw [get?_raiseEntry, if_neg fun h => hne h.1]
      have hstep : (raiseEntry s d).2 = true ↔ s.2 = true ∨ needs (Assoc.get? d.1 s.1) d.2 = true := by
        unfold raiseEntry
        split <;> simp_all
      rw [List.foldl_cons, ih hds, hrest, hstep, List.exists_mem_cons_iff, or_assoc]

/-- Where nothing has to be raised, nothing is done. -/
theorem foldl_eq (h : ∀ d ∈ ds, needs (Assoc.get? d.1 s.1) d.2 = false) : ds.foldl raiseEntry s = s := by
  induction ds generalizing s with
  | nil => rfl
  | cons d ds ih =>
      have hd : raiseEntry s d = s := by rw [raiseEntry, h d (.head _), if_neg Bool.false_ne_true]
      rw [List.foldl_cons, hd]
      exact ih fun d' hd' => h d' (.tail _ hd')

end

theorem get?_raiseEntries (hd : Proper deps) (es : Members) (k : String) :
    Assoc.get? k (raiseEntries es deps).1 =
      match Assoc.get? k deps with
      | none => Assoc.get? k es
      | some v => if needs (Assoc.get? k es) v then some (.str ("^" ++ v)) else Assoc.get? k es := by
  rw [raiseEntries, get?_foldl (Text.proper_sortByKey hd), Text.get?_sortByKey hd]

theorem raised_raiseEntries (hd : Proper deps) (es : Members) :
    Raised deps es (raiseEntries es deps).1 where
  keys := keys_foldl (Text.sortByKey deps) (es, false)
  other := by
    refine filter_foldl (p := fun k => decide (k ∉ keys deps)) (fun d hd => ?_) (es, false)
    have hmem := (Text.keys_sortByKey_perm deps).mem_iff.mp (Assoc.mem_keys_of_mem hd)
    simpa using hmem
  raised hk hbelow := by
    rw [get?_raiseEntries hd, hk]
    exact if_pos (needs_iff.mpr hbelow)
  kept hk hbelow := by
    rw [get?_raiseEntries hd, hk]
    exact if_neg fun h => hbelow (needs_iff.mp h)

/-- The entries change just where one of them has to be raised. -/
theorem changed_raiseEntries (hd : Proper deps) :
    (raiseEntries es deps).2 = true ↔ ∃ k v, Assoc.get? k deps = some v ∧ Below (Assoc.get? k es) v := by
  rw [raiseEntries, changed_foldl (Text.proper_sortByKey hd)]
  simp only [Bool.false_eq_true, false_or, needs_iff]
  constructor
  · rintro ⟨⟨k, v⟩, hmem, hbelow⟩
    exact ⟨k, v, (Text.get?_sortByKey hd k) ▸ Assoc.get?_of_mem (Text.proper_sortByKey hd) hmem, hbelow⟩
  · rintro ⟨k, v, hk, hbelow⟩
    exact ⟨(k, v), Assoc.mem_of_get? ((Text.get?_sortByKey hd k).trans hk), hbelow⟩

/-- A second time nothing is raised. -/
theorem raiseEntries_again (hd : Proper deps) (es : Members) :
    raiseEntries (raiseEntries es deps).1 deps = ((raiseEntries es deps).1, false) := by
  refine foldl_eq fun d hmem => ?_
  have hget := Assoc.get?_of_mem (Text.proper_sortByKey hd) hmem
  rw [Text.get?_sortByKey hd] at hget
  dsimp only
  rw [get?_raiseEntries hd, hget]
  dsimp only
  split
  · exact needs_caret d.2
  · rename_i h
    rwa [Bool.not_eq_true] at h

/-- Where something changes, there are other entries than before. -/
theorem ne_of_changed (hd : Proper deps) (h : (raiseEntries es deps).2 = true) :
    (raiseEntries es deps).1 ≠ es := by
  obtain ⟨k, v, hk, hbelow⟩ := (changed_raiseEntries hd).mp h
  intro heq
  have hraised := (raised_raiseEntries hd es).raised hk hbelow
  rw [heq] at hraised
  rw [← needs_iff, hraised, needs_caret] at hbelow
  cases hbelow

/-! ## Raising the dependencies -/

/-- The dependencies are there and no object. -/
def Broken (data : Members) : Prop := ∃ v, Assoc.get? "dependencies" data = some v ∧ v.members? = none

/-- The entries of the dependencies, none where there is no object of them. -/
def entriesOf (data : Members) : Members :=
  match Assoc.get? "dependencies" data with
  | some (.obj es) => es
  | _ => []

/-- What raising does to a package file. -/
structure RaisedIn (deps : List (String × String)) (data data' : Members) : Prop where
  /-- No member is removed, and those that were there stay in their order. -/
  keys : keys data <+: keys data'
  /-- All other members keep their values and their order. -/
  other : data'.filter (fun e => e.1 ≠ "dependencies") = data.filter fun e => e.1 ≠ "dependencies"
  /-- The dependencies are an object, if anything changed. -/
  object : data' = data ∨ ∃ es, Assoc.get? "dependencies" data' = some (.obj es)
  /-- The entries are raised. -/
  entries : Raised deps (entriesOf data) (entriesOf data')

theorem raise_of_broken (h : Broken data) (p : Path) (deps : List (String × String)) :
    raise p data deps = .error (.dependencies p) := by
  obtain ⟨v, hv, hno⟩ := h
  rw [raise, hv]
  cases v <;> first | rfl | cases hno

theorem raise_of_not_broken (h : ¬ Broken data) (p : Path) (deps : List (String × String)) :
    raise p data deps =
      .ok (Assoc.set "dependencies" (.obj (raiseEntries (entriesOf data) deps).1) data,
        (raiseEntries (entriesOf data) deps).2) := by
  unfold raise entriesOf
  cases hv : Assoc.get? "dependencies" data with
  | none => rfl
  | some v =>
      cases v with
      | obj es => rfl
      | _ => exact absurd ⟨_, hv, rfl⟩ h

theorem entriesOf_set (es data : Members) :
    entriesOf (Assoc.set "dependencies" (.obj es) data) = es := by
  rw [entriesOf, Assoc.get?_set_same]

theorem not_broken_set (es data : Members) :
    ¬ Broken (Assoc.set "dependencies" (.obj es) data) := by
  rintro ⟨v, hv, hno⟩
  rw [Assoc.get?_set_same, Option.some.injEq] at hv
  subst hv
  cases hno

theorem raisedIn_set (hd : Proper deps) (data : Members) :
    RaisedIn deps data
      (Assoc.set "dependencies" (.obj (raiseEntries (entriesOf data) deps).1) data) where
  keys := by
    by_cases hmem : "dependencies" ∈ keys data
    · rw [Assoc.keys_set_of_mem hmem]
    · rw [Assoc.set_of_not_mem hmem, Assoc.keys_append]
      exact List.prefix_append ..
  other := filter_set (p := fun k => decide (k ≠ "dependencies")) (by simp) ..
  object := .inr ⟨_, Assoc.get?_set_same ..⟩
  entries := by
    rw [entriesOf_set]
    exact raised_raiseEntries hd _

/-- Where no entry has to be raised, the file is raised as it is. -/
theorem raisedIn_self (hd : Proper deps) (h : (raiseEntries (entriesOf data) deps).2 = false) :
    RaisedIn deps data data where
  keys := List.prefix_refl _
  other := rfl
  object := .inl rfl
  entries :=
    { keys := List.prefix_refl _
      other := rfl
      raised := fun hk hbelow => by
        rw [(changed_raiseEntries hd).mpr ⟨_, _, hk, hbelow⟩] at h
        cases h
      kept := fun _ _ => rfl }

/-! ## The file -/

section

variable {w w' : Workspace} {p : Path}

theorem readObject_eq_ok (h : (readObject p).run w = .ok data w') : ∃ text,
    w' = w ∧ (readText p).run w = .ok text w ∧ Json.parse? text = some (.obj data) := by
  obtain ⟨text, w₁, htext, h₁⟩ := bind_eq_ok.mp h
  obtain rfl := (reader_readText p).eq htext
  obtain rfl := (Reader.lift _ _).eq h₁
  refine ⟨text, rfl, htext, ?_⟩
  unfold objectOf at h₁
  cases hp : Json.parse? text with
  | none => rw [hp] at h₁; cases h₁
  | some v =>
      rw [hp] at h₁
      cases v <;> cases h₁
      rfl

theorem readObject_run {text : String} (ht : (readText p).run w = .ok text w)
    (hp : Json.parse? text = some (.obj data)) : (readObject p).run w = .ok data w := by
  have hobject : objectOf p text = .ok data := by rw [objectOf, hp]
  rw [readObject, bind_ok ht, hobject]
  rfl

theorem isFile_of_readObject (h : (readObject p).run w = .ok data w) : w.files.isFile p = true := by
  obtain ⟨text, -, htext, -⟩ := readObject_eq_ok h
  obtain ⟨-, bytes, hb, -⟩ := readText_eq_ok htext
  exact FileTree.isFile_iff.mpr ⟨bytes, hb⟩

/-- A call reads the file and raises what it has. -/
theorem update_run (h : (readObject p).run w = .ok data w) (deps : List (String × String)) :
    (update p deps).run w = (do
      let (raised, changed) ← Op.lift .text (raise p data deps)
      if changed then
        let _ ← Op.writeIfChanged p ((Json.obj raised).render .pretty ++ "\n")
      return changed : Op Bool).run w := by
  rw [update, bind_ok (isFile_run p w), isFile_of_readObject h, if_pos rfl, bind_ok h]

theorem update_of_broken (h : (readObject p).run w = .ok data w) (hb : Broken data)
    (deps : List (String × String)) :
    (update p deps).run w = .error (.text (.dependencies p)) w := by
  rw [update_run h, raise_of_broken hb]
  rfl

theorem update_of_unchanged (h : (readObject p).run w = .ok data w) (hb : ¬ Broken data)
    (hc : (raiseEntries (entriesOf data) deps).2 = false) : (update p deps).run w = .ok false w := by
  rw [update_run h, raise_of_not_broken hb, hc]
  rfl

theorem tidy_set {ms : Members} {j : Json} (hms : (Json.obj ms).Tidy) (hj : j.Tidy) (k : String) :
    (Json.obj (Assoc.set k j ms)).Tidy := by
  refine ⟨Assoc.proper_set hms.1 _ _, Json.tidyMembers_iff.mpr fun e he => ?_⟩
  rcases (Assoc.mem_set hms.1).mp he with rfl | ⟨he, -⟩
  · exact hj
  · exact Json.tidyMembers_iff.mp hms.2 e he

theorem tidy_raiseEntries {es : Members} (h : (Json.obj es).Tidy) (deps : List (String × String)) :
    (Json.obj (raiseEntries es deps).1).Tidy := by
  refine List.foldlRecOn (motive := fun s : Members × Bool => (Json.obj s.1).Tidy) _ _ h
    fun s hs d _ => ?_
  unfold raiseEntry
  split
  · exact tidy_set hs (j := .str _) trivial _
  · exact hs

theorem tidy_entriesOf (h : (Json.obj data).Tidy) : (Json.obj (entriesOf data)).Tidy := by
  unfold entriesOf
  split
  · rename_i es hes
    exact Json.tidyMembers_iff.mp h.2 _ (Assoc.mem_of_get? hes)
  · exact ⟨Assoc.proper_nil, trivial⟩

/-- Where an entry has to be raised, the file is written and reads as what was raised. -/
theorem update_of_changed (ht : w.files.Housed) (hp : p.EndsInName)
    (h : (readObject p).run w = .ok data w) (hb : ¬ Broken data)
    (hc : (raiseEntries (entriesOf data) deps).2 = true) : ∃ t,
    (update p deps).run w = .ok true { w with files := t } ∧
      (∀ k, k ≠ w.files.key p → t.bytesAt? k = w.files.bytesAt? k) ∧
      (readObject p).run { w with files := t } =
        .ok (Assoc.set "dependencies" (.obj (raiseEntries (entriesOf data) deps).1) data)
          { w with files := t } := by
  obtain ⟨text, -, htext, hparse⟩ := readObject_eq_ok h
  have htidy := Json.tidy_parse? hparse
  have hraised := tidy_set htidy (tidy_raiseEntries (tidy_entriesOf htidy) deps) "dependencies"
  generalize hj : Json.obj (Assoc.set "dependencies"
    (.obj (raiseEntries (entriesOf data) deps).1) data) = j at hraised
  obtain ⟨b, w', hwrite⟩ := writeIfChanged_run ht hp htext (j.render .pretty ++ "\n")
  obtain ⟨t, rfl, hwrote⟩ := writeIfChanged_eq_ok hwrite
  obtain ⟨bytes, hbytes, hdecode⟩ := hwrote.bytes
  rw [Json.unifyLineBreaks_render .pretty hraised] at hdecode
  have hkey : t.key p = w.files.key p := FileTree.key_congr hwrote.workingDirectory p
  have hread : (readText p).run { w with files := t } =
      .ok (j.render .pretty ++ "\n") { w with files := t } :=
    readText_run (by rw [← hkey] at hbytes; exact hbytes) hdecode
  refine ⟨t, ?_, hwrote.other, readObject_run hread (by rw [Json.parse?_render .pretty hraised, hj])⟩
  rw [update_run h, raise_of_not_broken hb, hc, bind_ok (lift_ok ..)]
  dsimp only
  rw [if_pos rfl, hj, bind_ok hwrite]
  rfl

/-- A file that is an object is refused just when its dependencies are there and no object, and then
nothing changes.  Otherwise only its dependencies are raised, the call says whether anything changed in
the file as it is read, and a second call changes nothing. -/
theorem update_only_raises (ht : w.files.Housed) (hp : p.EndsInName) (hd : Proper deps)
    (h : (readObject p).run w = .ok data w) :
    ((∃ e w', (update p deps).run w = .error e w') ↔
      ∃ v, Assoc.get? "dependencies" data = some v ∧ v.members? = none) ∧
    (∀ {e w'}, (update p deps).run w = .error e w' → e = .text (.dependencies p) ∧ w' = w) ∧
    ∀ {changed w'}, (update p deps).run w = .ok changed w' →
      (∃ t, w' = { w with files := t } ∧
        ∀ k, k ≠ w.files.key p → t.bytesAt? k = w.files.bytesAt? k) ∧
      (∃ data', (readObject p).run w' = .ok data' w' ∧ RaisedIn deps data data' ∧
        (changed = true ↔ data' ≠ data)) ∧
      (changed = false → w' = w) ∧ (update p deps).run w' = .ok false w' := by
  by_cases hb : Broken data
  · have hrun := update_of_broken h hb deps
    refine ⟨⟨fun _ => hb, fun _ => ⟨_, _, hrun⟩⟩, fun herror => ?_, fun hok => ?_⟩
    · cases hrun.symm.trans herror
      exact ⟨rfl, rfl⟩
    · cases hrun.symm.trans hok
  cases hc : (raiseEntries (entriesOf data) deps).2 with
  | false =>
      have hrun := update_of_unchanged h hb hc
      refine ⟨⟨?_, fun hv => absurd hv hb⟩, fun herror => ?_, fun hok => ?_⟩
      · rintro ⟨e, w', herror⟩
        cases hrun.symm.trans herror
      · cases hrun.symm.trans herror
      · cases hrun.symm.trans hok
        exact ⟨⟨_, rfl, fun _ _ => rfl⟩, ⟨data, h, raisedIn_self hd hc, by simp⟩, fun _ => rfl, hrun⟩
  | true =>
      obtain ⟨t, hrun, hother, hread⟩ := update_of_changed ht hp h hb hc
      refine ⟨⟨?_, fun hv => absurd hv hb⟩, fun herror => ?_, fun hok => ?_⟩
      · rintro ⟨e, w', herror⟩
        cases hrun.symm.trans herror
      · cases hrun.symm.trans herror
      cases hrun.symm.trans hok
      have hne : Assoc.set "dependencies" (.obj (raiseEntries (entriesOf data) deps).1) data ≠ data := by
        intro heq
        refine ne_of_changed hd hc ?_
        rw [← entriesOf_set (raiseEntries (entriesOf data) deps).1 data, heq]
      refine ⟨⟨t, rfl, hother⟩, ⟨_, hread, raisedIn_set hd data, by simpa using hne⟩, nofun, ?_⟩
      refine update_of_unchanged hread (fun hbroken => not_broken_set _ _ hbroken) ?_
      rw [entriesOf_set, raiseEntries_again hd]

/-- An entry that the map does not name stays. -/
theorem Raised.get?_eq (h : Raised deps es es') (hk : Assoc.get? k deps = none) :
    Assoc.get? k es' = Assoc.get? k es := by
  have hmem : k ∉ Assoc.keys deps := Assoc.get?_eq_none_iff.mp hk
  have hfilter (es : Members) :
      Assoc.get? k (es.filter fun e => e.1 ∉ Assoc.keys deps) = Assoc.get? k es := by
    rw [Assoc.get?_filter_key (fun k => decide (k ∉ Assoc.keys deps)), if_pos (decide_eq_true hmem)]
  rw [← hfilter es', h.other, hfilter]

/-- What a call writes for a name is a caret before the version of the map, however that is spelled.  Where
this is the text of a version by itself, the entry is the range from that version on.  The entry has
the least version of the map unless a blank and then an operator stand before the version. -/
theorem update_writes_carets (ht : w.files.Housed) (hp : p.EndsInName) (hd : Proper deps)
    (hv : ∀ d ∈ deps, Version.isReadable d.2 = true) (h : (readObject p).run w = .ok data w)
    {changed : Bool} {w' : Workspace} {data' : Members} {entry : Json}
    (hrun : (update p deps).run w = .ok changed w') (hread : (readObject p).run w' = .ok data' w')
    (hnew : Assoc.get? k (entriesOf data') = some entry)
    (hother : Assoc.get? k (entriesOf data) ≠ some entry) :
    ∃ v, Assoc.get? k deps = some v ∧ entry = .str ("^" ++ v) ∧
      (∀ x, Version.parse? v = some x → Version.leastOf? v = some x ∧
        Version.leastOf? ("^" ++ v) = some x) ∧
      (Version.leastOf? ("^" ++ v) = Version.leastOf? v ↔ ¬ Version.Detached v) := by
  obtain ⟨-, ⟨data₁, hread₁, hraised, -⟩, -⟩ := (update_only_raises ht hp hd h).2.2 hrun
  cases hread₁.symm.trans hread
  cases hk : Assoc.get? k deps with
  | none => exact absurd (hraised.entries.get?_eq hk ▸ hnew) hother
  | some v =>
      have hwritten : Assoc.get? k (entriesOf data') = some (.str ("^" ++ v)) := by
        by_cases hbelow : Below (Assoc.get? k (entriesOf data)) v
        · exact hraised.entries.raised hk hbelow
        · exact absurd (hraised.entries.kept hk hbelow ▸ hnew) hother
      have hreadable := hv _ (Assoc.mem_of_get? hk)
      have hiff := Version.leastOf?_caret_eq_iff hreadable
      refine ⟨v, rfl, Option.some.inj (hnew.symm.trans hwritten), fun x hx => ?_, hiff⟩
      have hleast := Version.leastOf?_of_parse? hx
      exact ⟨hleast, (hiff.mpr (Version.not_detached_of_parse? hx)).trans hleast⟩

end

/-- The place of a package file. -/
def samplePath : Path := .ofText "/work/package.json"

/-- The text of a package file with two dependencies. -/
def sampleText : String :=
  "\x7b\"name\": \"x\", \"dependencies\": \x7b\"a\": \"~1\", \"b\": NaN\x7d\x7d"

/-- A workspace with a package file. -/
def sample : Workspace := (writeIfChanged samplePath sampleText).after Project.blank

/-- Versions for three packages. -/
def sampleVersions : List (String × String) := [("c", "3"), ("a", "1.2.0"), ("b", "1.0.0")]

theorem housed_sample : sample.files.Housed := by
  have hsafe : Safe .any (writeIfChanged samplePath sampleText) := safe_writeIfChanged trivial
  exact ((hsafe.runs _ trivial).after Project.sound_blank).housed (FileTree.housed_empty _ _ _)

theorem endsInName_samplePath : samplePath.EndsInName := ⟨by decide +kernel, by decide +kernel⟩

theorem proper_sampleVersions : Proper sampleVersions := by simp [Proper, sampleVersions]

/-- The file is read, its first entry has to be raised, and it is raised. -/
theorem needs_sample : (∃ data, (readObject samplePath).run sample = .ok data sample ∧
      needs (Assoc.get? "a" (entriesOf data)) "1.2.0" = true) ∧
    ∃ w', (update samplePath sampleVersions).run sample = .ok true w' := by
  obtain ⟨hneeds, hupdate⟩ : (readObject samplePath).gives sample
        (fun data _ => needs (Assoc.get? "a" (entriesOf data)) "1.2.0") = true ∧
      (update samplePath sampleVersions).gives sample (fun changed _ => changed) = true := by
    decide +kernel
  obtain ⟨data, w₁, hread, hneeds⟩ := gives_eq_true.mp hneeds
  obtain ⟨_, rfl, -⟩ := readObject_eq_ok hread
  obtain ⟨changed, w', hupdate, rfl⟩ := gives_eq_true.mp hupdate
  exact ⟨⟨data, hread, hneeds⟩, w', hupdate⟩

/-- Of the entries of the file one is raised and one is added. -/
theorem update_only_raises_sample : ∃ data w' data',
    (readObject samplePath).run sample = .ok data sample ∧
      (update samplePath sampleVersions).run sample = .ok true w' ∧
      (readObject samplePath).run w' = .ok data' w' ∧ RaisedIn sampleVersions data data' ∧
      (update samplePath sampleVersions).run w' = .ok false w' := by
  obtain ⟨⟨data, hread, -⟩, w', hupdate⟩ := needs_sample
  obtain ⟨-, hread', -, hagain⟩ :=
    (update_only_raises housed_sample endsInName_samplePath proper_sampleVersions hread).2.2 hupdate
  obtain ⟨data', hdata', hraised, -⟩ := hread'
  exact ⟨data, w', data', hread, hupdate, hdata', hraised, hagain⟩

/-- The entry that is raised is the range from the version on, with the least version of that. -/
theorem update_writes_carets_sample : ∃ w' data',
    (update samplePath sampleVersions).run sample = .ok true w' ∧
      (readObject samplePath).run w' = .ok data' w' ∧
      Assoc.get? "a" (entriesOf data') = some (.str "^1.2.0") ∧
      Version.leastOf? "^1.2.0" = Version.leastOf? "1.2.0" := by
  obtain ⟨⟨data, hread, hneeds⟩, w', hupdate⟩ := needs_sample
  obtain ⟨-, ⟨data', hread', hraised, -⟩, -⟩ :=
    (update_only_raises housed_sample endsInName_samplePath proper_sampleVersions hread).2.2 hupdate
  have hv : Assoc.get? "a" sampleVersions = some "1.2.0" := by decide
  have hnew := hraised.entries.raised hv (needs_iff.mp hneeds)
  have hother : Assoc.get? "a" (entriesOf data) ≠ some (.str "^1.2.0") := by
    intro hold
    rw [hold] at hneeds
    cases hneeds.symm.trans (needs_caret "1.2.0")
  obtain ⟨v, hv', -, hleast, -⟩ := update_writes_carets housed_sample endsInName_samplePath
    proper_sampleVersions (by decide +kernel) hread hupdate hread' hnew hother
  cases hv.symm.trans hv'
  obtain ⟨x, hx⟩ := Option.isSome_iff_exists.mp
    (by decide +kernel : (Version.parse? "1.2.0").isSome = true)
  exact ⟨w', data', hupdate, hread', hnew, (hleast x hx).2.trans (hleast x hx).1.symm⟩

end IntentBuild.Package
