import IntentBuild.Proofs.Build.Past

/-!
# What pruning leaves

Pruning goes through the file nodes below a root and forgets those whose files are gone.  After it every
file that stands below the root has its file (`Stage.backed_pruneMissing`), since the list has every row
under its own path.  A row whose file is there stays (`Stage.stands_pruneMissing`): the nodes above a file
stand for directories, and of the files only those that are gone are forgotten.
-/

namespace IntentBuild

open Op

/-! ## Files that stay -/

/-- Where no file is removed, a file stays. -/
theorem Reach.isFile {w w' : Workspace} (h : Reach Event.Retains w w') {p : Path}
    (hp : w.files.isFile p = true) : w'.files.isFile p = true := by
  rw [FileTree.isFile_iff_fileAt?] at hp ⊢
  rw [h.key_eq]
  exact h.isSome_fileAt? hp

theorem Event.retains_of_not_writes {e : Event} (he : ¬ e.Writes) : e.Retains := by
  cases e with
  | remove => exact absurd trivial he
  | _ => trivial

/-- Every file that stands below a root has its file in a directory. -/
def Graph.Backed (w : Workspace) (kind : FileKind) (root : String) (P : Path) : Prop :=
  ∀ names i, Stands w kind root names i → w.files.isFile (P.below names) = true

/-- While no file goes and no row comes, every file has its file. -/
theorem Graph.Backed.reach {w w' : Workspace} {kind : FileKind} {root : String} {P : Path}
    (h : Backed w kind root P) (hw : w.Sound)
    (hr : Reach (fun e => e.Omits kind.file ∧ e.Retains) w w') : Backed w' kind root P :=
  fun names i hs => (hr.mono fun _ he => he.2).isFile
    (h names i ((hr.mono fun _ he => he.1).stands hw hs))

/-! ## Pruning -/

/-- No file of a kind comes in the graph, and no file changes. -/
def Event.Prunes (type : NodeType) (e : Event) : Prop := e.Omits type ∧ ¬ e.Writes

/-- The same files are listed. -/
theorem Reach.filesBelow_of_prunes {type : NodeType} {w w' : Workspace} (h : Reach (Event.Prunes type) w w')
    (P : Path) : w'.files.filesBelow P Stage.markdown = w.files.filesBelow P Stage.markdown :=
  (h.mono fun _ he _ _ => Event.clears_of_not_writes he.2).filesBelow_eq fun _ hs =>
    w.documentKey_ne_of_shown hs _

namespace Stage

variable {c : BuildContext} {root n : Node} {kind : Graph.FileKind} {P : Path} {w w₀ w' : Workspace}
  {S : String → Prop} {names : List String} {i : String} {l : List (Path × Node)}

theorem declares_prunes (hk : kind.Places) :
    (Regime.only fun e => e.Prunes kind.file ∧ e.Spares S).Declares where
  manifest n hn _ := ⟨⟨fun h => by
    have ht := hk.file
    rw [← h, hn] at ht
    simp [NodeType.IsPlace] at ht, id⟩, trivial⟩
  redeclare _ _ _ := ⟨⟨trivial, id⟩, trivial⟩
  link _ := ⟨⟨trivial, id⟩, trivial⟩
  unlink _ _ := ⟨⟨trivial, id⟩, trivial⟩

/-- A node that is forgotten stands nowhere, and what it was not above of stays. -/
theorem runs_forget_spares (hk : kind.Places) (hS : w₀.Shelter S) (hstay : w₀.Stay S w)
    (hn : ¬ S n.id) : Runs (fun e => e.Prunes kind.file ∧ e.Spares S) w (forget c n) fun _ w' =>
      ∀ p names, ¬ Graph.Stands w' kind p names n.id := by
  refine ((Graph.runs_cascadeDelete_spares hS hstay hn).mono fun e he => ?_).bind
    fun _ w₁ hw₁ _ hfells => ?_
  · refine ⟨?_, Graph.spares_of_drops he⟩
    cases e <;> first | exact he.elim | exact ⟨trivial, id⟩
  obtain ⟨gone, hclears, hgone, -⟩ := hfells
  refine (((Manifest.safe_reconcile (declares_prunes hk) c.project.node).runs w₁ trivial).weaken
    fun _ w' hr _ => ?_).bind fun _ _ _ _ h => .pure h
  intro p names hs
  obtain ⟨d, name, m, hm, -⟩ := ((hr.mono fun _ he => he.1.1).stands hw₁ hs).keyed
  exact hclears.not_mem_of_key (Assoc.mem_keys_of_get? hm) hgone

/-- Pruning spares a class with none of the files that are gone, and leaves every file that stands with
its file. -/
theorem runs_pruneMissing (hw : w.Sound) (ha : w.Apt) (hk : kind.Places) (hkind : kind.file ≠ kind.dir)
    (hP : root.pathEntry = .path P) (hS : w.Shelter S)
    (hl : (Graph.fileNodes root kind).run w = .ok l w)
    (hspared : ∀ e ∈ l, w.files.isFile e.1 = false → ¬ S e.2.id) :
    Runs (fun e => e.Prunes kind.file ∧ e.Spares S) w (pruneMissing c root kind)
      fun _ w' => Graph.Backed w' kind root.id P := by
  have retained {v v' : Workspace} (hr : Reach (fun e => e.Prunes kind.file ∧ e.Spares S) v v') :
      Reach Event.Retains v v' := hr.mono fun _ he => Event.retains_of_not_writes he.1.2
  refine .reads hl ((Runs.forIn_fold (J := fun done v => ∀ e ∈ done, v.files.isFile e.1 = true ∨
    ∀ names, ¬ Graph.Stands v kind root.id names e.2.id) (fun done e hpre v hv hreach hJ => ?_)
      fun e he => absurd he List.not_mem_nil).bind fun _ w' _ hreach hJ => .pure fun names i hs => ?_)
  · have hmem := hpre.subset (List.mem_append_right done (List.mem_singleton_self e))
    have kept {v' : Workspace} (hr : Reach (fun e => e.Prunes kind.file ∧ e.Spares S) v v') : ∀ e ∈ done,
        v'.files.isFile e.1 = true ∨ ∀ names, ¬ Graph.Stands v' kind root.id names e.2.id :=
      fun e he => (hJ e he).imp (retained hr).isFile fun hgone names hs =>
        hgone names ((hr.mono fun _ he => he.1.1).stands hv hs)
    have next {v' : Workspace} (hr : Reach (fun e => e.Prunes kind.file ∧ e.Spares S) v v')
        (he : v'.files.isFile e.1 = true ∨ ∀ names, ¬ Graph.Stands v' kind root.id names e.2.id) :
        ∀ e' ∈ done ++ [e], v'.files.isFile e'.1 = true ∨
          ∀ names, ¬ Graph.Stands v' kind root.id names e'.2.id := by
      intro e' he'
      rcases List.mem_append.mp he' with he' | he'
      · exact kept hr e' he'
      · exact List.mem_singleton.mp he' ▸ he
    refine .reads (isFile_run e.1 v) (.ite (fun hfile => ?_) fun hfile => ?_)
    · rw [Bool.not_eq_true'] at hfile
      have hgone : w.files.isFile e.1 = false := by
        rw [Bool.eq_false_iff] at hfile ⊢
        exact fun h => hfile ((retained hreach).isFile h)
      have hstay := Lasts.reach (w.lasts_stay S) hw (hreach.mono fun _ he => he.2) (.refl w _)
      exact ((runs_forget_spares hk hS hstay (hspared e hmem hgone)).weaken fun _ _ hr h =>
        And.intro hr h).bind fun _ v' _ _ h => .pure ⟨rfl, next h.1 (.inr (h.2 _))⟩
    · rw [Bool.not_eq_true', Bool.not_eq_false] at hfile
      exact .pure ⟨rfl, next (.refl v) (.inl hfile)⟩
  · have hs₀ := (hreach.mono fun _ he => he.1.1).stands hw hs
    obtain ⟨d, name, n, hn, -⟩ := hs₀.keyed
    obtain rfl := hw.wellFormed.nodes.owned hn
    have hlisted := Graph.mem_fileNodes_of_stands hw hkind hP hl hn hs₀ fun m hm => (hs₀.isName ha hk m hm).1
    exact (hJ _ hlisted).resolve_right fun hgone => hgone names hs

/-- After pruning, every file that stands below the root has its file. -/
theorem backed_pruneMissing (hw : w.Sound) (ha : w.Apt) (hk : kind.Places) (hkind : kind.file ≠ kind.dir)
    (hP : root.pathEntry = .path P) (h : (pruneMissing c root kind).run w = .ok ⟨⟩ w') :
    Reach (Event.Prunes kind.file) w w' ∧ Graph.Backed w' kind root.id P := by
  obtain ⟨l, hl⟩ := Graph.fileNodes_run hw hP kind
  obtain ⟨hreach, hbacked⟩ := (runs_pruneMissing (S := fun _ => False) hw ha hk hkind hP
    ⟨False.elim, fun h => h.elim⟩ hl fun _ _ _ => id).ok hw h
  exact ⟨hreach.mono fun _ he => he.1, hbacked⟩

/-- Of what is above a file, only the file itself is one. -/
theorem eq_of_above (hroot : w.Clear kind.file root.id) (hkind : kind.file ≠ kind.dir)
    (hs : Graph.Stands w kind root.id names i) (hn : w.tables.node? n.id = some n)
    (ht : n.type = kind.file) (h : w.Above i n.id) : n.id = i := by
  obtain ⟨_, _, d, -, hlead, hkeyed⟩ := hs.descends
  rcases Relation.ReflTransGen.cases_tail h with heq | ⟨q, habove, m, hm, hparent⟩
  · exact heq.symm
  · have hq : q = d := Option.some.inj (hparent.symm.trans
      (congrArg NodeKey.parent ((Workspace.Keyed.key_eq ⟨m, hm, rfl⟩ hkeyed))))
    subst hq
    exact absurd ht ((hlead.clear hroot hkind.symm).2 _ _ habove (.of_node? hn))

/-- A file that stands at a row stays if its file is there. -/
theorem stands_pruneMissing (hw : w.Sound) (ha : w.Apt) (hk : kind.Places) (hkind : kind.file ≠ kind.dir)
    (hP : root.pathEntry = .path P) (hroot : w.Clear kind.file root.id)
    (hs : Graph.Stands w kind root.id names i) (hfile : w.files.isFile (P.below names) = true)
    (h : (pruneMissing c root kind).run w = .ok ⟨⟩ w') : Graph.Stands w' kind root.id names i := by
  obtain ⟨l, hl⟩ := Graph.fileNodes_run hw hP kind
  obtain ⟨d, name, hkeyed⟩ := hs.keyed
  have hS := w.shelter_above hw hkeyed
  have hspared : ∀ e ∈ l, w.files.isFile e.1 = false → ¬ w.Above i e.2.id := by
    intro e he hgone habove
    obtain ⟨hn, ht⟩ := Graph.mem_fileNodes hw hl he
    obtain rfl := eq_of_above hroot hkind hs hn ht habove
    rw [Graph.path_of_mem_fileNodes hw hkind hP hl he hs fun m hm => (hs.isName ha hk m hm).1,
      hfile] at hgone
    cases hgone
  obtain ⟨hreach, -⟩ := (runs_pruneMissing hw ha hk hkind hP hS hl hspared).ok hw h
  exact hs.stay .refl hS (Lasts.reach (w.lasts_stay _) hw (hreach.mono fun _ he => he.2) (.refl w _))
    hreach.instanceId_eq

end Stage

end IntentBuild
