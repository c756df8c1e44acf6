import IntentBuild.Proofs.Build.Compiled
import IntentBuild.Proofs.Operation.Batch
import IntentBuild.Proofs.Project

/-!
# Source files side by side

The source file of an intent file has the path of the intent file without its last ending.  Different intent
files have different source files.  But the directories keep their names, so a file `a.ts.md` is compiled to
`a.ts`, where a file `a.ts/b.ts.md` beside it asks for a directory.  Of two source files one is on the way to
the other exactly in this case (`sourceRow_prefix_iff`).

So the source files of the listed intent files can be written, in any order, exactly when no intent file has
such a directory with another one in it beside it (`sources_side_by_side`).  A unit of the stage writes its
source file the same way before it goes on with the node of the file (`applySource_run`), and with one intent
file in the directory beside another one the stage never completes (`not_run_of_houses`).
-/

namespace IntentBuild.Compilation

open Op

variable {w v v' : Workspace} {P S : Path} {f g : Indexing.IntentFile}

/-- The directory beside the first intent file that has its name without the ending has the second one in
it. -/
def Houses (f g : Indexing.IntentFile) : Prop :=
  ∃ init l, f.row = init ++ [l ++ ".md"] ∧ init ++ [l] <+: g.row.dropLast

/-- One source file is on the way to another one exactly when the one intent file houses the other. -/
theorem sourceRow_prefix_iff (hf : HasSource f) (hg : HasSource g) :
    (sourceRow f <+: sourceRow g ∧ sourceRow f ≠ sourceRow g) ↔ Houses f g := by
  obtain ⟨init, l, hrow, hsource⟩ := hf.row
  obtain ⟨init', l', hrow', hsource'⟩ := hg.row
  have hdrop : g.row.dropLast = (sourceRow g).dropLast := by
    rw [hrow', hsource', List.dropLast_concat, List.dropLast_concat]
  constructor
  · rintro ⟨hpre, hne⟩
    have hbefore := FileTree.prefix_dropLast hpre hne
    rw [← hdrop, hsource] at hbefore
    exact ⟨init, l, hrow, hbefore⟩
  · rintro ⟨init₁, l₁, hrow₁, hpre⟩
    obtain ⟨rfl, hlast⟩ := List.append_inj' (hrow.symm.trans hrow₁) rfl
    obtain rfl : l = l₁ := (String.append_left_inj ".md").mp (List.cons.inj hlast).1
    rw [← hsource, hdrop] at hpre
    refine ⟨hpre.trans (List.dropLast_prefix _), fun heq => ?_⟩
    rw [heq] at hpre
    have hlen := hpre.length_le
    have hpos := List.length_pos_iff.mpr hg.isRow.nonempty
    rw [List.length_dropLast] at hlen
    omega

/-- The path that the source of an intent file is written to. -/
def sourcePath (S : Path) (f : Indexing.IntentFile) : Path := S.child (Path.withoutIntentSuffix f.relative)

theorem HasSource.names (hf : HasSource f) (S : Path) : (sourcePath S f).names = S.names ++ sourceRow f := by
  rw [sourcePath, hf.path]
  rfl

theorem HasSource.key_sourcePath (hf : HasSource f) (t : FileTree) (S : Path) :
    t.key (sourcePath S f) = t.key S ++ sourceRow f := by
  rw [sourcePath, hf.path, hf.key]

/-- The path of a source file ends in a name. -/
theorem HasSource.endsInName (hf : HasSource f) (S : Path) : (sourcePath S f).EndsInName := by
  have hlast : (sourcePath S f).name ∈ sourceRow f := by
    rw [sourcePath, hf.path, Path.name_below S hf.isRow.nonempty, List.getLastD_eq_getLast?,
      List.getLast?_eq_some_getLast hf.isRow.nonempty, Option.getD_some]
    exact List.getLast_mem hf.isRow.nonempty
  obtain ⟨hname, hup⟩ := hf.isRow.proper _ hlast
  exact ⟨hname.nonempty, hup⟩

/-- The source files of intent files of which none houses another one are aside of each other. -/
theorem aside_of_not_houses (hf : HasSource f) (hg : HasSource g) (hne : sourceRow f ≠ sourceRow g)
    (hfg : ¬ Houses f g) (hgf : ¬ Houses g f) (t : FileTree) (S : Path) :
    Aside (t.key (sourcePath S f)) (t.key (sourcePath S g)) := by
  rw [hf.key_sourcePath, hg.key_sourcePath]
  refine ⟨fun hpre => hfg ?_, fun hpre => hgf ?_⟩
  · exact (sourceRow_prefix_iff hf hg).mp ⟨(List.prefix_append_right_inj _).mp hpre, hne⟩
  · exact (sourceRow_prefix_iff hg hf).mp ⟨(List.prefix_append_right_inj _).mp hpre, hne.symm⟩

/-- Different listed intent files have different rows for their sources. -/
theorem sourceRow_ne (ht : w.files.Proper) (hf : f ∈ Indexing.listed w.files P)
    (hg : g ∈ Indexing.listed w.files P) (hne : f ≠ g) : sourceRow f ≠ sourceRow g :=
  fun h => hne (sourceRow_injective ht hf hg h)

/-- What is written for the listed intent files goes to places that are aside of each other. -/
theorem pairwise_aside (ht : w.files.Proper)
    (hapart : ∀ f ∈ Indexing.listed w.files P, ∀ g ∈ Indexing.listed w.files P, ¬ Houses f g)
    {order : List (Indexing.IntentFile × String)} (horder : (order.map Prod.fst).Perm (Indexing.listed w.files P))
    (t : FileTree) (S : Path) :
    (order.map fun e => (sourcePath S e.1, e.2)).Pairwise fun e e' => Aside (t.key e.1) (t.key e'.1) := by
  have hmem {e : Indexing.IntentFile × String} (he : e ∈ order) : e.1 ∈ Indexing.listed w.files P :=
    horder.subset (List.mem_map_of_mem he)
  have hdistinct : order.Pairwise fun e e' => e.1 ≠ e'.1 :=
    List.pairwise_map.mp (horder.nodup_iff.mpr (Indexing.nodup_listed ht P))
  refine List.pairwise_map.mpr (hdistinct.imp_of_mem fun he he' hne => ?_)
  dsimp only
  exact aside_of_not_houses (hasSource_of_mem ht (hmem he)) (hasSource_of_mem ht (hmem he'))
    (sourceRow_ne ht (hmem he) (hmem he') hne) (hapart _ (hmem he) _ (hmem he'))
    (hapart _ (hmem he') _ (hmem he)) t S

/-- What is written for intent files, each with its source text. -/
def outputs (S : Path) (order : List (Indexing.IntentFile × String)) : List (Path × String) :=
  order.map fun e => (sourcePath S e.1, e.2)

/-- Sources are written at free places, in any order, where no listed intent file houses another one. -/
theorem writeAll_outputs (ht : w.files.Proper)
    (hapart : ∀ f ∈ Indexing.listed w.files P, ∀ g ∈ Indexing.listed w.files P, ¬ Houses f g)
    {order : List (Indexing.IntentFile × String)} (horder : (order.map Prod.fst).Perm (Indexing.listed w.files P))
    (hfree : ∀ f ∈ Indexing.listed w.files P, v.files.Free (sourcePath S f)) :
    ∃ bs v', (writeAll (outputs S order)).run v = .ok bs v' ∧ ∀ e ∈ order, Reads v' (sourcePath S e.1) e.2 := by
  have hmem {e : Indexing.IntentFile × String} (he : e ∈ order) : e.1 ∈ Indexing.listed w.files P :=
    horder.subset (List.mem_map_of_mem he)
  have hname : ∀ e ∈ outputs S order, e.1.EndsInName := by
    refine List.forall_mem_map.mpr fun e he => ?_
    dsimp only
    exact (hasSource_of_mem ht (hmem he)).endsInName S
  have hplace : ∀ e ∈ outputs S order, v.files.Free e.1 := by
    refine List.forall_mem_map.mpr fun e he => ?_
    dsimp only
    exact hfree e.1 (hmem he)
  obtain ⟨bs, v', hrun, hreads⟩ := writeAll_run hname hplace (pairwise_aside ht hapart horder v.files S)
  have hread := List.forall_mem_map.mp hreads
  dsimp only at hread
  exact ⟨bs, v', hrun, hread⟩

/-- They are written in no order where one houses another. -/
theorem not_writeAll_outputs (ht : w.files.Proper) (hf : f ∈ Indexing.listed w.files P)
    (hg : g ∈ Indexing.listed w.files P) (hhouses : Houses f g)
    {order : List (Indexing.IntentFile × String)} (horder : (order.map Prod.fst).Perm (Indexing.listed w.files P))
    (hv : v.files.Housed) (bs : List Bool) (v' : Workspace) : (writeAll (outputs S order)).run v ≠ .ok bs v' := by
  intro hrun
  have hsource := hasSource_of_mem ht hf
  have hsource' := hasSource_of_mem ht hg
  obtain ⟨hpre, hne⟩ := (sourceRow_prefix_iff hsource hsource').mpr hhouses
  have hwritten {f : Indexing.IntentFile} (hf : f ∈ Indexing.listed w.files P) :
      ∃ e ∈ outputs S order, e.1 = sourcePath S f := by
    obtain ⟨e, he, rfl⟩ := List.mem_map.mp (horder.mem_iff.mpr hf)
    refine ⟨_, List.mem_map_of_mem he, ?_⟩
    dsimp only
  obtain ⟨e, he, hpath⟩ := hwritten hf
  obtain ⟨e', he', hpath'⟩ := hwritten hg
  refine not_prefix_of_writeAll hv hrun he he' ?_ ?_
  · rw [hpath, hpath', hsource.key_sourcePath, hsource'.key_sourcePath]
    exact fun heq => hne (List.append_cancel_left heq)
  · rw [hpath, hpath', hsource.key_sourcePath, hsource'.key_sourcePath]
    exact (List.prefix_append_right_inj _).mpr hpre

/-- Different listed intent files have different source files, and the one is on the way to the other exactly
when the one intent file houses the other.  Where files stand in directories and the places of all source
files are free, these can be written, in any order, when no listed intent file houses another one, and in no
order otherwise. -/
theorem sources_side_by_side (ht : w.files.Proper) (P S : Path) :
    ((Indexing.listed w.files P).map (sourcePath S)).Nodup ∧
    (∀ f ∈ Indexing.listed w.files P, ∀ g ∈ Indexing.listed w.files P, f ≠ g →
      ((sourcePath S f).names <+: (sourcePath S g).names ↔ Houses f g)) ∧
    ∀ (v : Workspace) (order : List (Indexing.IntentFile × String)), v.files.Housed →
      (order.map Prod.fst).Perm (Indexing.listed w.files P) →
      (∀ f ∈ Indexing.listed w.files P, v.files.Free (sourcePath S f)) →
      ((∀ f ∈ Indexing.listed w.files P, ∀ g ∈ Indexing.listed w.files P, ¬ Houses f g) →
        ∃ bs v', (writeAll (outputs S order)).run v = .ok bs v' ∧
          ∀ e ∈ order, Reads v' (sourcePath S e.1) e.2) ∧
      ((∃ f ∈ Indexing.listed w.files P, ∃ g ∈ Indexing.listed w.files P, Houses f g) →
        ∀ bs v', (writeAll (outputs S order)).run v ≠ .ok bs v') := by
  refine ⟨?_, fun f hf g hg hne => ?_, fun v order hv horder hfree => ⟨fun hapart => ?_, ?_⟩⟩
  · refine (Indexing.nodup_listed ht P).map_on fun f hf g hg heq => ?_
    have hnames := congrArg Path.names heq
    rw [(hasSource_of_mem ht hf).names, (hasSource_of_mem ht hg).names] at hnames
    exact sourceRow_injective ht hf hg (List.append_cancel_left hnames)
  · rw [(hasSource_of_mem ht hf).names, (hasSource_of_mem ht hg).names, List.prefix_append_right_inj,
      ← sourceRow_prefix_iff (hasSource_of_mem ht hf) (hasSource_of_mem ht hg)]
    exact (and_iff_left (sourceRow_ne ht hf hg hne)).symm
  · exact writeAll_outputs ht hapart horder hfree
  · rintro ⟨f, hf, g, hg, hhouses⟩
    exact not_writeAll_outputs ht hf hg hhouses horder hv

/-! ## What the stage writes -/

/-- What a unit does once its source file is written. -/
def tie (c : BuildContext) (file : Node) (path : Path) (text : String) : Op Unit := do
  let n ← Graph.placeOf c.project.source path.text Graph.sourceKind
  let _ ← Graph.setContent n (.put (some text)) .keep .keep
  let _ ← Graph.link file n .implements ""

/-- A unit writes its source file as one of many outputs, and then ties the node of the file. -/
theorem applySource_run {c : BuildContext} (hS : c.project.source.pathEntry = .path S) (file : Node)
    (f : Indexing.IntentFile) (source : String) : (applySource c file f.relative source).run w =
      (writeAll (outputs S [(f, sourceText source)]) >>= fun _ =>
        tie c file (sourcePath S f) (sourceText source)).run w := by
  rw [applySource, bind_ok (Graph.pathOf_run hS w), writeAll, outputs, List.map_singleton,
    List.mapM_cons, List.mapM_nil]
  simp only [bind_assoc, pure_bind]
  rfl

/-- The source files of two intent files of which one houses the other are not both there. -/
theorem not_sourced_of_houses (hw : w.files.Housed) (hf : HasSource f) (hg : HasSource g)
    (hhouses : Houses f g) (hfile : w.files.isFile (S.below (sourceRow f)) = true) :
    w.files.isFile (S.below (sourceRow g)) = false := by
  obtain ⟨hpre, hne⟩ := (sourceRow_prefix_iff hf hg).mpr hhouses
  refine Bool.of_not_eq_true fun hfile' => hne ?_
  obtain ⟨b, hb⟩ := FileTree.isFile_iff.mp hfile
  obtain ⟨b', hb'⟩ := FileTree.isFile_iff.mp hfile'
  rw [hf.key] at hb
  rw [hg.key] at hb'
  exact List.append_cancel_left (hw.eq_of_prefix (Option.isSome_of_eq_some hb)
    (Option.isSome_of_eq_some hb') ((List.prefix_append_right_inj _).mpr hpre))

/-- The stage, one unit at a time, does not complete where one listed intent file houses another one. -/
theorem not_run_of_houses {c : BuildContext} (hone : c.runner.concurrency ≤ 1)
    (hP : c.project.intent.pathEntry = .path P) (hne : P.names ≠ [])
    (hS : c.project.source.pathEntry = .path S) (hne' : S.names ≠ []) (hw : w.Sound)
    (ht : w.files.Proper) (hb : Graph.Backed w Graph.intentKind c.project.intent.id P)
    (hhoused : w.files.Housed) (hf : f ∈ Indexing.listed w.files P) (hg : g ∈ Indexing.listed w.files P)
    (hhouses : Houses f g) (r : StageReport) (w' : Workspace) : (run c).run w ≠ .ok r w' := by
  intro hrun
  obtain ⟨hreach, -, hcompiled⟩ := run_eq_ok hone hP hne hS hne' hw ht hb hrun
  obtain ⟨_, _, -, -, hsourced⟩ := hcompiled f hf
  obtain ⟨_, _, -, -, hsourced'⟩ := hcompiled g hg
  have hnot := not_sourced_of_houses (hreach.housed hhoused) (hasSource_of_mem ht hf)
    (hasSource_of_mem ht hg) hhouses hsourced.file
  rw [hsourced'.file] at hnot
  cases hnot

/-! ## Two intent files -/

/-- A workspace with two intent files. -/
def two (first second : String) : Workspace :=
  (writeIfChanged (.ofText second) "b\n").after ((writeIfChanged (.ofText first) "a\n").after Project.blank)

/-- The intent files in it. -/
abbrev pair (first second : String) : List Indexing.IntentFile :=
  Indexing.listed (two first second).files (.ofText "/work/intent")

theorem proper_two (first second : String) : (two first second).files.Proper := by
  have hsafe (s text : String) : Safe (.only Event.Proper) (writeIfChanged (.ofText s) text) :=
    safe_writeIfChanged fun n hn => Path.isName_of_mem_ofText hn
  have hfirst := ((hsafe first "a\n").runs _ trivial).after Project.sound_blank
  have hsecond := ((hsafe second "b\n").runs _ trivial).after (hfirst.sound Project.sound_blank)
  exact ((hfirst.trans hsecond).proper Project.proper_blank).files

theorem hasSource_pair {first second : String} (hf : f ∈ pair first second) : HasSource f :=
  hasSource_of_mem (proper_two first second) hf

/-- Two files of the list are all of it. -/
theorem eq_pair {first second a b : String} (h : (pair first second).map Indexing.IntentFile.relative = [a, b]) :
    ∃ f g, pair first second = [f, g] := by
  obtain ⟨f, rest, hcons, -, hrest⟩ := List.map_eq_cons_iff.mp h
  obtain ⟨g, rest', hcons', -, hnil⟩ := List.map_eq_cons_iff.mp hrest
  exact ⟨f, g, by rw [hcons, hcons', List.map_eq_nil_iff.mp hnil]⟩

/-- Where there are no files, nothing is in the way of a source file. -/
theorem free_blank (hf : HasSource f) : Project.blank.files.Free (sourcePath (.ofText "/work/src") f) := by
  obtain ⟨hroot, hnames⟩ : Project.blank.files.key (.ofText "/work/src") = ["work", "src"] ∧
      (Path.ofText "/work").names = ["work"] := by decide +kernel
  have hkey : Project.blank.files.key (sourcePath (.ofText "/work/src") f) = "work" :: "src" :: sourceRow f := by
    rw [hf.key_sourcePath, hroot]
    rfl
  have hnone (k : List String) : Project.blank.files.bytesAt? k = none := FileTree.bytesAt?_empty ..
  have hpre : ¬ "work" :: "src" :: sourceRow f <+: ["work"] := fun h => by simpa using h.length_le
  have hdir : Project.blank.files.entryAt (Project.blank.files.key
      (sourcePath (.ofText "/work/src") f)) ≠ some .dir := by
    rw [hkey, Project.blank, FileTree.empty, FileTree.entryAt_addDirs, hnames, if_neg hpre, Option.or_none]
    rintro ⟨⟩
  refine ⟨hdir, fun k _ _ => hnone k, fun b hb => ?_⟩
  rw [hnone] at hb
  cases hb

/-- The source files of `a.ts.md` and `c.ts/b.ts.md` are written in either order. -/
theorem sources_side_by_side_two : ∃ (f g : Indexing.IntentFile) (bs : List Bool) (v' : Workspace),
    pair "/work/intent/a.ts.md" "/work/intent/c.ts/b.ts.md" = [f, g] ∧
    (writeAll (outputs (.ofText "/work/src") [(g, "g\n"), (f, "f\n")])).run Project.blank = .ok bs v' ∧
    Reads v' (sourcePath (.ofText "/work/src") f) "f\n" ∧ Reads v' (sourcePath (.ofText "/work/src") g) "g\n" := by
  have ht := proper_two "/work/intent/a.ts.md" "/work/intent/c.ts/b.ts.md"
  obtain ⟨hrows, hlist⟩ : (∀ f ∈ pair "/work/intent/a.ts.md" "/work/intent/c.ts/b.ts.md",
      ∀ g ∈ pair "/work/intent/a.ts.md" "/work/intent/c.ts/b.ts.md",
        ¬ (sourceRow f <+: sourceRow g ∧ sourceRow f ≠ sourceRow g)) ∧
      (pair "/work/intent/a.ts.md" "/work/intent/c.ts/b.ts.md").map Indexing.IntentFile.relative =
        ["a.ts.md", "c.ts/b.ts.md"] := by
    decide +kernel
  obtain ⟨f, g, hpair⟩ := eq_pair hlist
  have horder : [g, f].Perm (pair "/work/intent/a.ts.md" "/work/intent/c.ts/b.ts.md") := by
    rw [hpair]
    exact List.Perm.swap f g []
  obtain ⟨hwritten, -⟩ := (sources_side_by_side ht (.ofText "/work/intent") (.ofText "/work/src")).2.2
    Project.blank [(g, "g\n"), (f, "f\n")] (FileTree.housed_empty _ _ _) horder
    fun f hf => free_blank (hasSource_pair hf)
  obtain ⟨bs, v', hrun, hreads⟩ := hwritten fun f hf g hg h =>
    hrows f hf g hg ((sourceRow_prefix_iff (hasSource_pair hf) (hasSource_pair hg)).mpr h)
  exact ⟨f, g, bs, v', hpair, hrun, hreads (f, "f\n") (by simp), hreads (g, "g\n") (by simp)⟩

/-- The intent file `a.ts.md` is compiled to `a.ts`, where the source file of `a.ts/b.ts.md` has its directory.
So nothing is in the way of either source file, and they are written in no order. -/
theorem sources_in_the_way : ∃ inner outer : Indexing.IntentFile,
    pair "/work/intent/a.ts.md" "/work/intent/a.ts/b.ts.md" = [inner, outer] ∧ inner ≠ outer ∧
    (sourcePath (.ofText "/work/src") outer).names <+: (sourcePath (.ofText "/work/src") inner).names ∧
    (∀ f ∈ [inner, outer], Project.blank.files.Free (sourcePath (.ofText "/work/src") f)) ∧
    ∀ order : List (Indexing.IntentFile × String), (order.map Prod.fst).Perm [inner, outer] →
      ∀ bs v', (writeAll (outputs (.ofText "/work/src") order)).run Project.blank ≠ .ok bs v' := by
  obtain ⟨hlist, hrows⟩ :
      (pair "/work/intent/a.ts.md" "/work/intent/a.ts/b.ts.md").map Indexing.IntentFile.relative =
        ["a.ts/b.ts.md", "a.ts.md"] ∧
      (pair "/work/intent/a.ts.md" "/work/intent/a.ts/b.ts.md").map sourceRow =
        [["a.ts", "b.ts"], ["a.ts"]] := by
    decide +kernel
  obtain ⟨inner, outer, hpair⟩ := eq_pair hlist
  rw [hpair] at hrows
  obtain ⟨hrow, hrow'⟩ : sourceRow inner = ["a.ts", "b.ts"] ∧ sourceRow outer = ["a.ts"] := by
    simpa using hrows
  have hmem : ∀ f ∈ [inner, outer], f ∈ pair "/work/intent/a.ts.md" "/work/intent/a.ts/b.ts.md" :=
    fun f hf => hpair ▸ hf
  have hinner := hasSource_pair (hmem inner (by simp))
  have houter := hasSource_pair (hmem outer (by simp))
  have hpre : sourceRow outer <+: sourceRow inner ∧ sourceRow outer ≠ sourceRow inner := by
    rw [hrow, hrow']
    decide
  refine ⟨inner, outer, hpair, fun h => hpre.2 (h ▸ rfl), ?_, fun f hf => ?_, fun order horder => ?_⟩
  · rw [hinner.names, houter.names, List.prefix_append_right_inj]
    exact hpre.1
  · exact free_blank (hasSource_pair (hmem f hf))
  · rw [← hpair] at horder
    exact not_writeAll_outputs (proper_two _ _) (hmem outer (by simp)) (hmem inner (by simp))
      ((sourceRow_prefix_iff houter hinner).mp hpre) horder (FileTree.housed_empty _ _ _)

end IntentBuild.Compilation
