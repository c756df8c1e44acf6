import IntentBuild.Proofs.Dependency.Locality
import IntentBuild.Proofs.Text.Trim

/-!
# Deltas are exact

Deltas that are applied again change no map (`sameMaps_again`).  For the file that is so because the
last delta of a name decides.  For the manifest the order of the edges counts, as the first of equal
versions wins, and deltas that are applied again keep the order at every name.

Replacing what a file declares applies the deltas that lead there (`replacement`), so the file declares
what is asked for.
-/

namespace IntentBuild.Manifest

open Op
open Assoc (keys Proper)

variable {p file b : Node} {w w' w'' : Workspace} {ds : List DependencyDelta} {m : Dependencies}

/-! ## Applying deltas again -/

/-- No map differs. -/
def SameMaps (w w' : Workspace) : Prop :=
  ∀ {i n'}, w'.tables.node? i = some n' →
    ∃ n, w.tables.node? i = some n ∧ textsAt "deps" n' = textsAt "deps" n

section

variable {b' : Node} (hleg : Legible p file (ds.map DependencyDelta.name) w)
  (h : Applies p file ds w w') (hr : Refreshes p file ds w w' b)
  (h' : Applies p file ds w' w'') (hr' : Refreshes p file ds w' w'' b')

include hleg h h' in
/-- The file declares the same after the second time. -/
theorem texts_again : ∃ f' f'' m, w'.tables.node? file.id = some f' ∧
    w''.tables.node? file.id = some f'' ∧ textsAt "deps" f' = .ok m ∧ textsAt "deps" f'' = .ok m := by
  obtain ⟨f, f', m, hf, hf', hm, hdeclares⟩ := h.declares
  obtain ⟨f₁, f'', m₁, hf₁, hf'', hm₁, hdeclares'⟩ := h'.declares
  obtain ⟨f₀, m₀, hf₀, -, hm₀, hproper⟩ := hleg.file
  cases hf.symm.trans hf₀
  cases hm.symm.trans hm₀
  cases hf'.symm.trans hf₁
  cases hdeclares.texts.symm.trans hm₁
  refine ⟨f', f'', _, hf', hf'', hdeclares.texts, ?_⟩
  rw [hdeclares'.texts, foldl_applyDelta_again hproper]

include hleg h hr h' hr' in
/-- The manifest has the same map after the second time. -/
theorem kept_again : kept p w'' = kept p w' := by
  obtain ⟨-, -, -, hproper, hsorted⟩ := h.manifest
  obtain ⟨-, -, -, hproper', hsorted'⟩ := h'.manifest
  have hid : b.id = b'.id := hr'.same hr.found
  rw [← hsorted, ← hsorted']
  refine Text.sortByKey_eq hproper' hproper fun k => ?_
  by_cases hk : k ∈ ds.map DependencyDelta.name
  swap
  · exact h'.deps k hk
  have hlane : lane k (pointers w''.tables b'.id) = lane k (pointers w'.tables b.id) := by
    rw [hr'.pointers, ← hid, hr.pointers, lane_foldl_point_again]
  have hbest := hr.best k hk
  rw [hbest, hr'.best k hk, saidOf_said, saidOf_said]
  change best ((lane k _).map _) = best ((lane k _).map _)
  rw [hlane]
  refine best_map_eq fun q _ => ?_
  rw [versionThen, versionThen, ← hid]
  by_cases hq : q.1 = b.id
  · rw [if_pos hq, hbest, saidOf_said]
    exact .inr rfl
  rw [if_neg hq, if_neg hq]
  refine .inl ?_
  by_cases hqf : q.1 = file.id
  · obtain ⟨f', f'', m, hf', hf'', hm', hm''⟩ := texts_again hleg h h'
    simp only [versionIn, hqf, hf', hf'', hm', hm'']
  · rw [versionIn, versionIn, h'.node hqf fun b₁ hb₁ => ?_]
    cases hr'.found.symm.trans hb₁
    exact hid ▸ hq

include hleg h hr h' hr' in
/-- Deltas that are applied again change no map. -/
theorem sameMaps_again (hw' : w'.Sound) (hw'' : w''.Sound) : SameMaps w' w'' := by
  intro i n'' hn''
  have hid : b.id = b'.id := hr'.same hr.found
  by_cases hf : i = file.id
  · obtain ⟨f', f'', m, hf', hf'', hm', hm''⟩ := texts_again hleg h h'
    subst hf
    cases hf''.symm.trans hn''
    exact ⟨f', hf', hm''.trans hm'.symm⟩
  by_cases hb : i = b'.id
  · obtain ⟨b₁, hb₁, htexts, -⟩ := h.manifest
    obtain ⟨b₂, hb₂, htexts', -⟩ := h'.manifest
    cases hr.found.symm.trans hb₁
    cases hr'.found.symm.trans hb₂
    have hs := ((Tables.findNode?_eq_some hw'.wellFormed).mp hr.found).1
    have hs' := ((Tables.findNode?_eq_some hw''.wellFormed).mp hr'.found).1
    subst hb
    cases hs'.symm.trans hn''
    exact ⟨b, hid ▸ hs, by rw [htexts', htexts, kept_again hleg h hr h' hr']⟩
  · refine ⟨n'', ?_, rfl⟩
    rw [← h'.node hf fun b₁ hb₁ => ?_, hn'']
    cases hr'.found.symm.trans hb₁
    exact hb

end

/-! ## What is asked for is declared -/

/-- The deltas from what a file declared to what it declares, one for each name. -/
def replacement (m declared : Dependencies) : List DependencyDelta :=
  (((Text.sortTexts (keys m)).filter fun n => !Assoc.has n declared).map fun n => ⟨.remove, n, none⟩) ++
    (Text.sortByKey declared).map fun d => ⟨.add, d.1, some d.2⟩

/-- The names are not empty, and the versions are readable. -/
def Declarable (declared : Dependencies) : Prop :=
  ∀ d ∈ declared, d.1 ≠ "" ∧ Version.isReadable d.2 = true

instance (declared : Dependencies) : Decidable (Declarable declared) :=
  inferInstanceAs (Decidable (∀ d ∈ declared, d.1 ≠ "" ∧ Version.isReadable d.2 = true))

/-- A readable version has ink. -/
theorem hasInk_of_isReadable {v : String} (h : Version.isReadable v = true) :
    Text.hasInk v = true := by
  rw [← Bool.not_eq_false, Text.hasInk_eq_false]
  intro hblank
  have hbody : Version.rangeBody v = "" := by
    rw [Version.rangeBody, List.dropWhile_eq_nil_iff.mpr hblank]
    rfl
  rw [Version.isReadable, Version.leastOf?, hbody] at h
  exact absurd h (by decide)

theorem make_remove {name : String} (h : name ≠ "") :
    DependencyDelta.make .remove name none = .ok ⟨.remove, name, none⟩ := by
  rw [DependencyDelta.make, Json.Read.nonempty]
  simp [Json.Read.text, Reading.andThen, h, Reading.under, DependencyDelta.check,
    DependencyDelta.hasVersion, DependencyDelta.readable, Reading.rule, Reading.validated]

theorem make_add {name v : String} (h : name ≠ "") (hv : Version.isReadable v = true) :
    DependencyDelta.make .add name (some v) = .ok ⟨.add, name, some v⟩ := by
  rw [DependencyDelta.make, Json.Read.nonempty]
  simp [Json.Read.text, Reading.andThen, h, Reading.under, DependencyDelta.check,
    DependencyDelta.hasVersion, DependencyDelta.readable, Reading.rule, Reading.validated, hv,
    hasInk_of_isReadable hv]

theorem mapM_eq_ok {α β ε : Type} {f : α → Except ε β} {g : α → β} {l : List α}
    (h : ∀ a ∈ l, f a = .ok (g a)) : l.mapM f = .ok (l.map g) := by
  induction l with
  | nil => rfl
  | cons a l ih =>
      rw [List.mapM_cons, h a (.head _), ih fun c hc => h c (.tail _ hc)]
      rfl

/-- The deltas of a replacement keep the rules. -/
theorem deltasTo_eq {declared : Dependencies}
    (hm : ∀ k ∈ keys m, k ∉ keys declared → k ≠ "") (hd : Declarable declared) :
    deltasTo m declared = .ok (replacement m declared) := by
  have hgone : (((Text.sortTexts (keys m)).filter fun n => !Assoc.has n declared).mapM fun n =>
      DependencyDelta.make .remove n none) = .ok _ := mapM_eq_ok fun n hn => make_remove ?_
  · have hadd : ((Text.sortByKey declared).mapM fun d =>
        DependencyDelta.make .add d.1 (some d.2)) = .ok _ := mapM_eq_ok fun d hmem => by
      obtain ⟨hname, hv⟩ := hd d ((Text.sortByKey_perm declared).mem_iff.mp hmem)
      exact make_add hname hv
    unfold deltasTo
    dsimp only
    change (((Text.sortTexts (keys m)).filter fun n => !Assoc.has n declared).mapM fun n =>
      DependencyDelta.make .remove n none) >>= _ = _
    rw [hgone, hadd]
    rfl
  · obtain ⟨hmem, hnot⟩ := List.mem_filter.mp hn
    exact hm n ((Sorting.sort_perm _).mem_iff.mp hmem)
      (Assoc.has_eq_false_iff.mp (by simpa using hnot))

theorem get?_foldl_removals (ns : List String) (m : Dependencies) (k : String) :
    Assoc.get? k ((ns.map fun n => (⟨.remove, n, none⟩ : DependencyDelta)).foldl applyDelta m) =
      if k ∈ ns then none else Assoc.get? k m := by
  induction ns generalizing m with
  | nil => rfl
  | cons n ns ih =>
      rw [List.map_cons, List.foldl_cons, ih, get?_applyDelta]
      by_cases hk : k ∈ ns
      · simp [hk]
      · by_cases hkn : n = k
        · simp [hkn, outcome]
        · simp [hk, hkn, Ne.symm hkn]

theorem get?_foldl_additions {l : Dependencies} (hl : Proper l) (m : Dependencies) (k : String) :
    Assoc.get? k ((l.map fun d => (⟨.add, d.1, some d.2⟩ : DependencyDelta)).foldl applyDelta m) =
      (Assoc.get? k l).or (Assoc.get? k m) := by
  induction l generalizing m with
  | nil => rfl
  | cons d l ih =>
      obtain ⟨hnew, hl⟩ := List.nodup_cons.mp hl
      rw [List.map_cons, List.foldl_cons, ih hl, get?_applyDelta]
      by_cases hk : d.1 = k
      · subst hk
        rw [if_pos rfl, Assoc.get?_eq_none_iff.mpr hnew, Assoc.get?_cons_same]
        rfl
      · rw [if_neg hk, Assoc.get?_cons_other hk]

/-- A replacement leads to what is asked for. -/
theorem foldl_replacement (hm : Proper m) {declared : Dependencies} (hd : Proper declared) :
    Text.sortByKey ((replacement m declared).foldl applyDelta m) = Text.sortByKey declared := by
  refine Text.sortByKey_eq (proper_foldl_applyDelta hm _) hd fun k => ?_
  rw [replacement, List.foldl_append, get?_foldl_additions (Text.proper_sortByKey hd),
    Text.get?_sortByKey hd, get?_foldl_removals]
  cases hk : Assoc.get? k declared with
  | some v => rfl
  | none =>
      rw [Option.none_or]
      split
      · rfl
      · rename_i hgone
        rw [Assoc.get?_eq_none_iff]
        refine fun hmem => hgone (List.mem_filter.mpr ⟨(Sorting.sort_perm _).mem_iff.mpr hmem, ?_⟩)
        rw [Assoc.has, hk]
        rfl

/-- A replacement has names of the two maps. -/
theorem mem_names_replacement {declared : Dependencies} {k : String}
    (hk : k ∈ (replacement m declared).map DependencyDelta.name) : k ∈ keys m ++ keys declared := by
  obtain ⟨d, hd, rfl⟩ := List.mem_map.mp hk
  rcases List.mem_append.mp hd with hd | hd
  · obtain ⟨n, hn, rfl⟩ := List.mem_map.mp hd
    exact List.mem_append_left _ ((Sorting.sort_perm _).mem_iff.mp (List.mem_filter.mp hn).1)
  · obtain ⟨e, he, rfl⟩ := List.mem_map.mp hd
    exact List.mem_append_right _ (Text.mem_keys_sortByKey.mp (List.mem_map_of_mem he))

/-! ## Exactness -/

/-- The deltas are applied, exactly and with no effect elsewhere, also where the document cannot be
written in the end, and applied again they change no map. -/
structure AppliesOnce (p file : Node) (ds : List DependencyDelta) (w : Workspace) : Prop where
  /-- Nothing fails but writing the document. -/
  succeeds : (∃ b, (applyDeltas p file ds).run w = .ok b ((applyDeltas p file ds).after w)) ∨
    w.graph.depth = 0 ∧ ¬ ((applyDeltas p file ds).after w).Writable
  /-- The deltas are applied. -/
  applies : Applies p file ds w ((applyDeltas p file ds).after w)
  /-- The next time they change no map. -/
  again : SameMaps ((applyDeltas p file ds).after w)
    ((applyDeltas p file ds).after ((applyDeltas p file ds).after w))

/-- What is known of applying deltas, whether the document can be written or not. -/
theorem Legible.after (hw : w.Sound) (h : Legible p file (ds.map DependencyDelta.name) w) :
    ((applyDeltas p file ds).after w).Sound ∧ ∃ b,
      Refreshes p file ds w ((applyDeltas p file ds).after w) b ∧
      Applies p file ds w ((applyDeltas p file ds).after w) ∧
      ((applyDeltas p file ds).run w = .ok b ((applyDeltas p file ds).after w) ∨
        w.graph.depth = 0 ∧ ¬ ((applyDeltas p file ds).after w).Writable) := by
  have hend := ends_applyDeltas_local h hw
  unfold Op.after
  cases hx : (applyDeltas p file ds).run w with
  | ok b w' =>
      rw [hx] at hend
      exact ⟨hend.1.reach.sound hw, b, hend.2.2, hend.2.1, .inl rfl⟩
  | error e w' =>
      rw [hx] at hend
      obtain ⟨hk, hd, hno, b, happlies, hrefreshes⟩ := hend
      exact ⟨hk.reach.sound hw, b, hrefreshes, happlies, .inr ⟨hd, hno⟩⟩

/-- Legible deltas are applied exactly. -/
theorem Legible.appliesOnce (hw : w.Sound) (h : Legible p file (ds.map DependencyDelta.name) w) :
    AppliesOnce p file ds w := by
  obtain ⟨hw', b, hrefreshes, happlies, hrun⟩ := h.after hw
  obtain ⟨hw'', b', hrefreshes', happlies', -⟩ := hrefreshes.legible.after hw'
  exact ⟨hrun.imp_left fun h => ⟨b, h⟩, happlies,
    sameMaps_again h happlies hrefreshes happlies' hrefreshes' hw' hw''⟩

/-- Replacing what a file declares applies the replacement. -/
theorem replaceDeclared_run {f : Node} {declared : Dependencies}
    (hf : w.tables.node? file.id = some f) (hm : textsAt "deps" f = .ok m)
    (hnames : ∀ k ∈ keys m, k ∉ keys declared → k ≠ "") (hd : Declarable declared) :
    (replaceDeclared p file declared).run w = (applyDeltas p file (replacement m declared)).run w := by
  have hread : (Op.lift (fun e => e) (textsAt "deps" f)).run w = .ok m w := by rw [hm]; rfl
  have hdeltas : (Op.lift .invalid (deltasTo m declared)).run w =
      .ok (replacement m declared) w := by rw [deltasTo_eq hnames hd]; rfl
  exact (bind_ok (Graph.require_run hf)).trans ((bind_ok hread).trans (bind_ok hdeltas))

/-- The file declares exactly a map. -/
def DeclaresExactly (file : Node) (declared : Dependencies) (w : Workspace) : Prop :=
  ∃ f, w.tables.node? file.id = some f ∧ textsAt "deps" f = .ok (Text.sortByKey declared)

/-- A balanced ledger is legible. -/
theorem Balanced.legible (h : Balanced p w) {f : Node} (hf : FileOf w.tables p f)
    (names : List String) : Legible p f names w where
  project := h.project
  file := by
    obtain ⟨m, hm⟩ := h.sheet hf
    exact ⟨f, m, hf.stored, hf.type, hm.texts, hm.orderly.proper⟩
  manifest hb := by
    obtain ⟨m, hm, hproper, -⟩ := h.toEntries.manifest hb
    exact ⟨m, textsAt_of_texts? hm, hproper⟩
  source hb k _ := (h.toEntries.legibleBehind hb).edgesAt k

/-- Deltas are applied exactly, locally and once for all where what they read can be read, and a file
declares what is asked for.  From a project that declares nothing, every row of dealings leads to where
that can be read. -/
theorem deltas_exact_and_local (hw : w.Sound) :
    (∀ ds, Legible p file (ds.map DependencyDelta.name) w → AppliesOnce p file ds w) ∧
    (∀ {f former declared}, w.tables.node? file.id = some f → textsAt "deps" f = .ok former →
      (∀ k ∈ keys former, k ∉ keys declared → k ≠ "") → Proper declared → Declarable declared →
      Legible p file (keys former ++ keys declared) w →
      ((∃ b, (replaceDeclared p file declared).run w =
          .ok b ((replaceDeclared p file declared).after w)) ∨
        w.graph.depth = 0 ∧ ¬ ((replaceDeclared p file declared).after w).Writable) ∧
      DeclaresExactly file declared ((replaceDeclared p file declared).after w)) ∧
    ∀ {w₀}, w₀.Sound → Undeclared p w₀ → Deals p w₀ w → FileOf w.tables p file →
      ∀ names, Legible p file names w := by
  refine ⟨fun ds h => h.appliesOnce hw, fun {f former declared} hf hm hnames hproper hd h => ?_,
    fun hw₀ h₀ hdeals hfile names => (hdeals.balanced hw₀ h₀).2.legible hfile names⟩
  have hrun := replaceDeclared_run (p := p) hf hm hnames hd
  have honce := (h.mono fun _ => mem_names_replacement).appliesOnce hw
  have hafter : (replaceDeclared p file declared).after w =
      (applyDeltas p file (replacement former declared)).after w := by
    rw [Op.after, Op.after, hrun]
  rw [hrun, hafter]
  refine ⟨honce.succeeds, ?_⟩
  obtain ⟨f₁, f', m, hf₁, hf', hm₁, hdeclares⟩ := honce.applies.declares
  obtain ⟨f₀, m₀, hf₀, -, hm₀, hproper'⟩ := h.file
  cases hf.symm.trans hf₀
  cases hf.symm.trans hf₁
  cases hm.symm.trans hm₀
  cases hm.symm.trans hm₁
  exact ⟨f', hf', by rw [hdeclares.texts, foldl_replacement hproper' hproper]⟩

/-! ## A file of the sample project -/

/-- The sample project after its file declared a name. -/
def declaredSample : Workspace :=
  (applyDeltas sampleProject sampleFile [⟨.add, "left-pad", some "1.0.0"⟩]).after sample

theorem balanced_declaredSample : declaredSample.Sound ∧ Balanced sampleProject declaredSample :=
  have h : Deals sampleProject sample declaredSample := .apply .none fileHandle_sample (by decide)
  h.balanced sound_sample undeclared_sample

theorem file_declaredSample : ∃ f, declaredSample.tables.node? sampleFile.id = some f ∧
    FileOf declaredSample.tables sampleProject f ∧
    f.id = sampleFile.id ∧ textsAt "deps" f = .ok [("left-pad", "1.0.0")] := by
  have hgives : (applyDeltas sampleProject sampleFile [⟨.add, "left-pad", some "1.0.0"⟩]).gives sample
      (fun _ w => (w.tables.node? sampleFile.id).any fun f => f.id = sampleFile.id ∧
        f.type = .specFile ∧ f.parent = some sampleProject.id ∧
        texts? "deps" f = some [("left-pad", "1.0.0")]) = true := by decide +kernel
  obtain ⟨b, w, hrun, htest⟩ := gives_eq_true.mp hgives
  have hw : declaredSample = w := by rw [declaredSample, Op.after, hrun]
  rw [Option.any_eq_true] at htest
  obtain ⟨f, hf, htest⟩ := htest
  obtain ⟨hid, htype, hparent, htexts⟩ := of_decide_eq_true htest
  subst hw
  exact ⟨f, hf, ⟨hid ▸ hf, .inl htype, .single ⟨f, hid ▸ hf, hparent⟩⟩, hid,
    textsAt_of_texts? htexts⟩

/-- In the sample project names are added and removed in any mix, and then others are asked for. -/
theorem deltas_exact_and_local_sample :
    AppliesOnce sampleProject sampleFile
        [⟨.remove, "left-pad", none⟩, ⟨.add, "zod", some "3.1.0"⟩, ⟨.add, "left-pad", some "2.0.0"⟩,
          ⟨.remove, "zod", none⟩] declaredSample ∧
      DeclaresExactly sampleFile [("zod", "3.1.0")]
        ((replaceDeclared sampleProject sampleFile [("zod", "3.1.0")]).after declaredSample) := by
  obtain ⟨hw, hb⟩ := balanced_declaredSample
  obtain ⟨f, hf, hfile, hid, hm⟩ := file_declaredSample
  have hlegible (names : List String) : Legible sampleProject sampleFile names declaredSample := by
    obtain ⟨hproject, ⟨f', m, hf', hrest⟩, hmanifest, hsource⟩ := hb.legible hfile names
    exact ⟨hproject, ⟨f', m, hid ▸ hf', hrest⟩, hmanifest, hsource⟩
  refine ⟨(deltas_exact_and_local hw).1 _ (hlegible _),
    ((deltas_exact_and_local hw).2.1 hf hm (by decide) (show (keys _).Nodup by decide)
      (by decide) (hlegible _)).2⟩

/-- A project with a file that holds no map. -/
def spoiled : Workspace :=
  blank.emptied.session [.asked (.getOrCreate none .project "demo" none),
    .asked (.getOrCreate (some sampleProject) .specFile "a.md" none),
    .asked (.setContent sampleFile .keep (.put (some [("deps", .null)])) .keep)]

/-- Deltas cannot be applied to a file that holds no map.  It goes on declaring nothing. -/
theorem deltas_not_applied_to_null :
    DependencyDelta.make .add "x" (some "1.0.0") = .ok ⟨.add, "x", some "1.0.0"⟩ ∧
    (∃ f, spoiled.tables.node? sampleFile.id = some f ∧ f.type.IsFile) ∧
    (∀ b w', (applyDeltas sampleProject sampleFile [⟨.add, "x", some "1.0.0"⟩]).run spoiled ≠
      .ok b w') ∧
    ¬ ∃ f m, ((applyDeltas sampleProject sampleFile [⟨.add, "x", some "1.0.0"⟩]).after
      spoiled).tables.node? sampleFile.id = some f ∧ textsAt "deps" f = .ok m := by
  have hfile {t : Tables} (h : ((t.node? sampleFile.id).any fun f => decide (f.type = .specFile ∧
      listsNames "deps" f = false)) = true) :
      ∃ f, t.node? sampleFile.id = some f ∧ f.type = .specFile ∧
        listsNames "deps" f = false := by
    rw [Option.any_eq_true] at h
    obtain ⟨f, hf, h⟩ := h
    exact ⟨f, hf, of_decide_eq_true h⟩
  refine ⟨make_add (by decide) (by decide), ?_, fun b w' hrun => ?_, ?_⟩
  · obtain ⟨f, hf, htype, -⟩ := hfile (t := spoiled.tables) (by decide +kernel)
    exact ⟨f, hf, .inl htype⟩
  · have hgives : (applyDeltas sampleProject sampleFile [⟨.add, "x", some "1.0.0"⟩]).gives spoiled
        (fun _ _ => true) = false := by decide +kernel
    rw [gives_eq_true.mpr ⟨b, w', hrun, rfl⟩] at hgives
    cases hgives
  · obtain ⟨f, hf, -, hnull⟩ := hfile (t := ((applyDeltas sampleProject sampleFile
      [⟨.add, "x", some "1.0.0"⟩]).after spoiled).tables) (by decide +kernel)
    rintro ⟨f', m, hf', hm⟩
    cases hf.symm.trans hf'
    rw [listsNames_of_textsAt hm] at hnull
    cases hnull

end IntentBuild.Manifest
