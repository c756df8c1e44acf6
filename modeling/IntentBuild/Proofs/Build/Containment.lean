import IntentBuild.Proofs.Build.Budget
import IntentBuild.Proofs.Build.Frame

/-!
# Stages stay in their directories

Whatever a model answers, lowering writes and removes only files strictly below the intent directory,
and compiling only writes files strictly below the source directory (`Build.contained`).  An entry of
a result that passes the check names a row of names (`Lowering.row`), and its file is the one at this
row below the intent directory.  The node of the file is the one that stands at the same row, so the
graph has no other reading of the path than the file system has (`Lowering.Mapped`).

For lowering this rests on the check of the entries.  For compiling it rests on the listing: a name
that is shown begins with no point, so what is left of it without its ending is a proper name
(`Path.ofText_source`).
-/

namespace IntentBuild

open Op

/-! ## Files below a root -/

/-- The path lies strictly below the directory of a root, and no name of it leads upwards. -/
def Graph.Contains (root : Node) (p : Path) : Prop :=
  ∃ P names, root.pathEntry = .path P ∧ p = P.below names ∧ names ≠ [] ∧
    ∀ n ∈ names, Path.IsName n ∧ n ≠ ".."

/-- A file that the change writes or removes lies below the directory of a root. -/
def Event.Inside (root : Node) : Event → Prop
  | .write p _ | .remove p => Graph.Contains root p
  | _ => True

/-- The files in which two workspaces differ lie strictly below the directory of a root, but for the
document of the graph. -/
def Workspace.SameOutside (root : Node) (w w' : Workspace) : Prop :=
  ∀ k, w'.files.fileAt? k ≠ w.files.fileAt? k → k = w.documentKey ∨
    ∃ P names, root.pathEntry = .path P ∧ names ≠ [] ∧ k = w.files.key P ++ names

/-- Where only files below a root are written and removed, all others stay. -/
theorem Reach.sameOutside {root : Node} {w w' : Workspace} (h : Reach (Event.Inside root) w w') :
    w.SameOutside root w' := by
  intro k hk
  refine Classical.byContradiction fun hout => ?_
  rw [not_or] at hout
  refine hk ((h.mono fun e he => ?_).fileAt?_eq hout.1)
  have clear {p : Path} (hp : Graph.Contains root p) :
      (p.resolve w.files.workingDirectory).names ≠ k := by
    obtain ⟨P, names, hP, rfl, hne, hnames⟩ := hp
    rintro rfl
    exact hout.2 ⟨P, names, hP, hne, w.files.key_below P fun n hn => (hnames n hn).2⟩
  cases e with
  | write | remove => exact clear he
  | _ => trivial

/-- The changes that keep inside the directory of a root. -/
def Regime.inside (root : Node) : Regime := .only (Event.Inside root)

/-- The changes that keep inside the directory of a root and remove no file. -/
def Regime.insideRetains (root : Node) : Regime := .only fun e => e.Inside root ∧ e.Retains

/-! ## Files that are shown -/

/-- The path is that of a shown row of names with the ending of specifications and intent files, and
there is a file. -/
structure Stage.Row (w : Workspace) (P path : Path) (names : List String) : Prop where
  /-- The path is that of the row. -/
  path : path = P.below names
  /-- The row is shown. -/
  shown : FileTree.Shown Stage.markdown names
  /-- The names can stand in a path. -/
  isName : ∀ n ∈ names, Path.IsName n
  /-- There is a file. -/
  file : (w.files.fileAt? (w.files.key P ++ names)).isSome

/-- The row of a file that is listed. -/
theorem Stage.row_of_mem_filesBelow {w : Workspace} (ht : w.files.Proper) {P : Path} {names : List String}
    (h : names ∈ w.files.filesBelow P Stage.markdown) : Stage.Row w P (P.below names) names := by
  obtain ⟨hshown, hfile⟩ := (FileTree.mem_filesBelow ht.entries).mp h
  exact ⟨rfl, hshown, fun n hn => ht.names hfile n (List.mem_append_right _ hn), hfile⟩

/-- There is a file at the path of a row. -/
theorem Stage.Row.isFile {w : Workspace} {P path : Path} {names : List String}
    (h : Stage.Row w P path names) : w.files.isFile path = true := by
  rw [h.path, FileTree.isFile_iff_fileAt?, w.files.key_below P h.shown.not_up]
  exact h.file

/-- A shown row with a file is listed. -/
theorem Stage.mem_filesBelow_of_isFile {w : Workspace} (ht : w.files.Proper) {P : Path}
    {names : List String} (hs : FileTree.Shown Stage.markdown names)
    (h : w.files.isFile (P.below names) = true) : names ∈ w.files.filesBelow P Stage.markdown := by
  rw [FileTree.isFile_iff_fileAt?, w.files.key_below P hs.not_up] at h
  exact (FileTree.mem_filesBelow ht.entries).mpr ⟨hs, h⟩

/-- Every file that is listed has a row. -/
theorem Stage.row_of_mem {w : Workspace} (ht : w.files.Proper) {P path : Path}
    (h : path ∈ w.files.listFiles P Stage.markdown) : ∃ names, Stage.Row w P path names := by
  obtain ⟨names, rfl, hshown, hfile⟩ := (FileTree.mem_listFiles ht.entries).mp h
  rw [w.files.key_below P hshown.not_up] at hfile
  exact ⟨names, rfl, hshown, fun n hn => ht.names hfile n (List.mem_append_right _ hn), hfile⟩

/-- The parts of a row below its root are its names. -/
theorem Stage.Row.hasParts {w : Workspace} {root : Node} {P path : Path} {names : List String}
    (h : Stage.Row w P path names) (hP : root.pathEntry = .path P) (hne : P.names ≠ []) :
    Graph.HasParts root path.text names := by
  rw [h.path]
  exact .of_below hP hne h.shown.nonempty fun n hn => ⟨h.isName n hn, h.shown.not_up n hn⟩

/-- The parts of a file that a root shows are its row. -/
theorem Stage.Shows.row {w : Workspace} {root : Node} {path : Path} {parts : List String}
    (h : Stage.Shows w root path) (ht : w.files.Proper) {P : Path}
    (hP : root.pathEntry = .path P) (hne : P.names ≠ [])
    (hparts : Graph.HasParts root path.text parts) : Stage.Row w P path parts := by
  obtain ⟨P', hP', hlisted⟩ := h
  cases hP.symm.trans hP'
  obtain ⟨names, hrow⟩ := Stage.row_of_mem ht hlisted
  exact hparts.unique (hrow.hasParts hP hne) ▸ hrow

/-! ## Lowering -/

namespace Lowering

variable {c : BuildContext} {e : IntentEntry} {w w' : Workspace}

/-- The row of names that the path of an entry spells. -/
def row (e : IntentEntry) : List String := (Path.ofText e.relativePath).names

theorem row_ne_nil (he : checkEntry e = .ok ()) : row e ≠ [] := by
  obtain ⟨init, n, hrow, -⟩ := concat_of_checkEntry he
  rw [row, hrow]
  simp

theorem isName_of_row (he : checkEntry e = .ok ()) : ∀ n ∈ row e, Path.IsName n ∧ n ≠ ".." := by
  refine fun n hn => ⟨Path.isName_of_mem_ofText hn, ?_⟩
  rintro rfl
  exact absurd ((relative_of_checkEntry he).2 _ hn) (by decide)

theorem child_entry (he : checkEntry e = .ok ()) (P : Path) :
    P.child e.relativePath = P.below (row e) :=
  Path.child_eq (relative_of_checkEntry he).1

theorem key_entry (he : checkEntry e = .ok ()) (t : FileTree) (P : Path) :
    t.key (P.child e.relativePath) = t.key P ++ row e := by
  rw [child_entry he, t.key_below P fun n hn => (isName_of_row he n hn).2]

theorem contains_entry (he : checkEntry e = .ok ()) {P : Path}
    (hP : c.project.intent.pathEntry = .path P) :
    Graph.Contains c.project.intent (P.child e.relativePath) :=
  ⟨P, row e, hP, child_entry he P, row_ne_nil he, isName_of_row he⟩

theorem inside_run (c : BuildContext) (hw : w.Sound) :
    Reach (Event.Inside c.project.intent) w ((run c).after w) := by
  have hD : (Regime.inside c.project.intent).Declares :=
    ⟨fun _ _ _ => trivial, fun _ _ _ => trivial, fun _ => trivial, fun _ _ => trivial⟩
  have hK : (Regime.inside c.project.intent).Records :=
    ⟨⟨fun _ _ _ _ _ => trivial⟩, trivial, fun _ => trivial, fun _ => trivial⟩
  have hF (type : NodeType) : (Regime.inside c.project.intent).Forgets type := fun _ n hI _ _ =>
    (Graph.safe_cascadeDelete (fun _ => trivial) (fun _ => trivial) (fun _ => trivial) n true).runs _ hI
  have hL (file : Node) : (Regime.inside c.project.intent).Lowers c file :=
    { toDeclares := hD
      toDerives := ⟨fun _ _ _ _ => trivial, fun _ _ _ _ => trivial⟩
      places := fun _ _ _ _ _ => trivial
      forgets := hF _
      entry := fun he _ hP => ⟨fun _ => contains_entry he hP, contains_entry he hP⟩ }
  exact ((safe_run hK hD (hF _) (fun _ _ _ _ _ _ _ _ => trivial) hL).runs w trivial).after hw

/-! ### Entries and their nodes -/

/-- Only the file at a path is written or removed. -/
def Touches (p : Path) : Event → Prop
  | .write q _ | .remove q => q = p
  | _ => True

theorem reach_applyEntry (hw : w.Sound) {P : Path} (hP : c.project.intent.pathEntry = .path P) :
    Reach (Touches (P.child e.relativePath)) w ((applyEntry c e).after w) := by
  have hD : (Regime.only (Touches (P.child e.relativePath))).Declares :=
    ⟨fun _ _ _ => trivial, fun _ _ _ => trivial, fun _ => trivial, fun _ _ => trivial⟩
  refine ((safe_applyEntry (R := .only (Touches (P.child e.relativePath))) hD
    (fun _ _ _ _ _ => trivial) (fun _ n hI _ _ => ?_) fun P' hP' => ?_).runs w trivial).after hw
  · exact (Graph.safe_cascadeDelete (fun _ => trivial) (fun _ => trivial) (fun _ => trivial) n
      true).runs _ hI
  · cases hP.symm.trans hP'
    exact ⟨fun _ => rfl, rfl⟩

/-- The path of an entry below the directory of the intent files has one reading. -/
structure Mapped (c : BuildContext) (P : Path) (e : IntentEntry) : Prop where
  /-- The file lies strictly below the directory, at the row of names of the entry. -/
  file : row e ≠ [] ∧ ∀ t : FileTree, t.key (P.child e.relativePath) = t.key P ++ row e
  /-- Applying the entry writes or removes no other file. -/
  applied : ∀ ⦃w⦄, w.Sound →
    Reach (Touches (P.child e.relativePath)) w ((applyEntry c e).after w)
  /-- The search for the node succeeds, and finds exactly the node that stands at this row. -/
  found : ∀ ⦃w⦄, w.Sound → ∃ o,
    (Graph.findPlaceOf c.project.intent (P.child e.relativePath).text Graph.intentKind).run w =
      .ok o w ∧ ∀ i, (∃ n, o = some n ∧ n.id = i) ↔
        Graph.Stands w Graph.intentKind c.project.intent.id (row e) i
  /-- Making the node is not refused for the path. -/
  accepted : Avoids Failure.IsPath
    (Graph.placeOf c.project.intent (P.child e.relativePath).text Graph.intentKind)
  /-- The node that is made stands at this row. -/
  made : ∀ ⦃w n w'⦄, w.Sound →
    (Graph.placeOf c.project.intent (P.child e.relativePath).text Graph.intentKind).run w =
      .ok n w' → Graph.Stands w' Graph.intentKind c.project.intent.id (row e) n.id
  /-- A node at this row stands at no other. -/
  exact : ∀ ⦃w names i⦄, w.Sound →
    Graph.Stands w Graph.intentKind c.project.intent.id (row e) i →
      Graph.Stands w Graph.intentKind c.project.intent.id names i → names = row e

theorem mapped {P : Path} (hP : c.project.intent.pathEntry = .path P) (hne : P.names ≠ [])
    (he : checkEntry e = .ok ()) : Mapped c P e := by
  have hparts : Graph.HasParts c.project.intent (P.child e.relativePath).text (row e) := by
    rw [child_entry he]
    exact .of_below hP hne (row_ne_nil he) (isName_of_row he)
  exact
    { file := ⟨row_ne_nil he, fun t => key_entry he t P⟩
      applied := fun _ hw => reach_applyEntry hw hP
      found := fun _ hw => by
        obtain ⟨o, hrun, -, ho⟩ := Graph.findPlaceOf_run hw hparts
        exact ⟨o, hrun, ho⟩
      accepted := Graph.avoids_placeOf hparts _
      made := fun _ _ _ hw hrun => ((Graph.runs_placeOf hparts).ok hw hrun).2.2
      exact := fun _ _ _ hw hrow hnames => hnames.names_eq hw hrow }

end Lowering

/-! ## Compiling -/

namespace Compilation

variable {c : BuildContext} {w : Workspace}

/-- The source path of an intent file that is shown lies below the source directory. -/
theorem contains_source {P Q : Path} {f : Indexing.IntentFile} (ht : w.files.Proper)
    (hP : c.project.intent.pathEntry = .path P) (hne : P.names ≠ [])
    (hQ : c.project.source.pathEntry = .path Q) (hf : Indexing.Shown c w f) :
    Graph.Contains c.project.source (Q.child (Path.withoutIntentSuffix f.relative)) := by
  obtain ⟨parts, hparts, hrelative⟩ := hf.relative
  have hrow := hf.shown.row ht hP hne hparts
  obtain ⟨init, l, -, hsource, hproper⟩ := Path.ofText_source hrow.shown hrow.isName
  rw [hrelative]
  refine ⟨Q, init ++ [l], hQ, ?_, by simp, hproper⟩
  rw [Path.child_eq (by rw [hsource]), hsource]

theorem inside_run (hw : w.Sound) (ht : w.files.Proper) {P : Path}
    (hP : c.project.intent.pathEntry = .path P) (hne : P.names ≠ []) :
    Reach (fun e => e.Inside c.project.source ∧ e.Retains) w ((run c).after w) := by
  have hD : (Regime.insideRetains c.project.source).Declares :=
    ⟨fun _ _ _ => ⟨trivial, trivial⟩, fun _ _ _ => ⟨trivial, trivial⟩, fun _ => ⟨trivial, trivial⟩,
      fun _ _ => ⟨trivial, trivial⟩⟩
  have hK : (Regime.insideRetains c.project.source).Records :=
    ⟨⟨fun _ _ _ _ _ => ⟨trivial, trivial⟩⟩, ⟨trivial, trivial⟩, fun _ => ⟨trivial, trivial⟩,
      fun _ => ⟨trivial, trivial⟩⟩
  have hC {f : Indexing.IntentFile} (hf : Indexing.Shown c w f) (file : Node) :
      (Regime.insideRetains c.project.source).Compiles c file f.relative :=
    { toDeclares := hD
      toDerives := ⟨fun _ _ _ _ => ⟨trivial, trivial⟩, fun _ _ _ _ => ⟨trivial, trivial⟩⟩
      places := fun _ _ _ _ _ => ⟨trivial, trivial⟩
      source := fun hQ _ => ⟨contains_source ht hP hne hQ hf, trivial⟩
      output := fun _ _ _ _ _ _ => ⟨trivial, trivial⟩
      input := fun _ _ _ _ _ => ⟨trivial, trivial⟩ }
  refine (Work.runs_ofUnits (R := .insideRetains c.project.source) (w := w) hK c.runner trivial
    ?_).after hw
  refine (runs_works hD (fun _ _ _ _ _ _ _ _ => ⟨trivial, trivial⟩) trivial).weaken
    fun us _ _ h u hu => ?_
  obtain ⟨s, -, -, -, -, h⟩ := h
  obtain ⟨f, text, file, hf, rfl⟩ := h u hu
  exact fits_unit (hC hf file) ..

end Compilation

/-! ## Both stages -/

/-- Whatever the specifications hold and the model answers, lowering writes and removes only files
strictly below the intent directory, and compiling only writes files strictly below the source
directory.  The path of every entry that passes the check has one reading. -/
theorem Build.contained {c : BuildContext} {Q : Path} (hc : c.project.Placed Q) :
    (∀ w, w.Sound → Reach (Event.Inside c.project.intent) w ((Lowering.run c).after w) ∧
      w.SameOutside c.project.intent ((Lowering.run c).after w)) ∧
    (∀ w, w.Sound → w.files.Proper →
      Reach (fun e => e.Inside c.project.source ∧ e.Retains) w ((Compilation.run c).after w) ∧
        w.SameOutside c.project.source ((Compilation.run c).after w)) ∧
    ∀ e, Lowering.checkEntry e = .ok () → Lowering.Mapped c (Q.child "intent") e := by
  have hne : (Q.child "intent").names ≠ [] := Q.child_ne_nil (by decide)
  refine ⟨fun w hw => ?_, fun w hw ht => ?_, fun e he => Lowering.mapped hc.intent hne he⟩
  · have hreach := Lowering.inside_run c hw
    exact ⟨hreach, hreach.sameOutside⟩
  · have hreach := Compilation.inside_run hw ht hc.intent hne
    exact ⟨hreach, (hreach.mono fun _ he => he.1).sameOutside⟩

/-! ## A project with a specification and an intent file -/

/-- What is written below a root has proper names. -/
theorem Event.Inside.proper {e : Event} {root : Node} (h : e.Inside root) : e.Proper := by
  cases e with
  | write p text =>
      obtain ⟨P, names, hP, rfl, -, hnames⟩ := h
      intro n hn
      rcases List.mem_append.mp hn with hn | hn
      · exact Graph.isName_of_pathEntry hP n hn
      · exact (hnames n hn).1
  | _ => trivial

/-- Writing a file of a path with proper names. -/
theorem Op.reach_written {w : Workspace} (hw : w.Sound) (full text : String) :
    Reach Event.Proper w ((writeIfChanged (.ofText full) text).after w) :=
  ((safe_writeIfChanged (R := .only Event.Proper) fun _ hn => Path.isName_of_mem_ofText hn).runs w
    trivial).after hw

namespace Project

theorem proper_blank : blank.Proper where
  files := FileTree.Proper.addDirs ⟨Assoc.proper_nil, fun {k} hk => by cases k <;> cases hk⟩ _
  workingDirectory n hn := Path.isName_of_mem_ofText hn
  root n hn := Path.isName_of_mem_ofText hn

theorem proper_sample : sample.Proper :=
  (((safe_setup (R := .only Event.Proper) (fun _ _ => trivial) (fun _ => trivial) _ _).runs _
    trivial).after sound_blank).proper proper_blank

/-- The new project with a specification and an intent file. -/
def filled : Workspace :=
  (writeIfChanged (.ofText "/work/demo/intent/old.ts.md") "o\n").after
    ((writeIfChanged (.ofText "/work/demo/specs/a.md") "a\n").after sample)

theorem reach_filled : Reach Event.Proper sample filled :=
  have h := reach_written sound_sample "/work/demo/specs/a.md" "a\n"
  h.trans (reach_written (h.sound sound_sample) _ _)

theorem sound_filled : filled.Sound := reach_filled.sound sound_sample

theorem proper_filled : filled.Proper := reach_filled.proper proper_sample

end Project

/-- A model that first gives an intent file in a new directory and the deletion of another one, and then
sources. -/
def Endpoint.writing : Endpoint
  | [], _ => ⟨.texts ["\x7b\"intentFiles\":[" ++
      "\x7b\"projectNo\":1,\"relativePath\":\"new/x.ts.md\",\"content\":\"x\"\x7d," ++
      "\x7b\"projectNo\":1,\"relativePath\":\"old.ts.md\",\"fileDelta\":\"delete\"\x7d]\x7d"], false⟩
  | _ :: _, _ => ⟨.texts ["\x7b\"targetSource\":\"y\"\x7d"], false⟩

/-- The context of a build with this model. -/
def BuildContext.writing (p : Project) : BuildContext where
  project := p
  extensions := []
  tools := { byTool := [("specs-to-intent", "m"), ("compiler", "m")], timeout := 120 }
  runner := { cache := { limit := 1 }, endpoint := .writing, concurrency := 1 }

/-- The entries set a file and delete another one below the intent directory, and the one that is left is
compiled below the source directory. -/
theorem Build.contained_sample : ∃ (p : Project) (r₁ r₂ : StageReport) (w₁ w₂ : Workspace),
    p.Placed (.ofText "/work/demo") ∧
    (Lowering.run (.writing p)).run Project.filled = .ok r₁ w₁ ∧
    Project.filled.SameOutside p.intent w₁ ∧ w₁.files.isFile (.ofText "/work/demo/intent/new/x.ts.md") ∧
    ¬ w₁.files.isFile (.ofText "/work/demo/intent/old.ts.md") ∧
    (Compilation.run (.writing p)).run w₁ = .ok r₂ w₂ ∧
    w₁.SameOutside p.source w₂ ∧ w₂.files.isFile (.ofText "/work/demo/src/new/x.ts") ∧
    ∀ e ∈ [⟨1, "new/x.ts.md", some "x", .set⟩, ⟨1, "old.ts.md", none, .delete⟩],
      Lowering.Mapped (.writing p) ((Path.ofText "/work/demo").child "intent") e := by
  obtain ⟨hentries, htest⟩ :
      (∀ e ∈ ([⟨1, "new/x.ts.md", some "x", .set⟩, ⟨1, "old.ts.md", none, .delete⟩] : List IntentEntry),
        Lowering.checkEntry e = .ok ()) ∧ Project.inPlace Project.filled (fun p =>
      (Lowering.run (.writing p)).gives Project.filled fun _ w₁ =>
        w₁.files.isFile (.ofText "/work/demo/intent/new/x.ts.md") &&
        !w₁.files.isFile (.ofText "/work/demo/intent/old.ts.md") &&
        (Compilation.run (.writing p)).gives w₁ fun _ w₂ =>
          w₂.files.isFile (.ofText "/work/demo/src/new/x.ts")) = true := by decide +kernel
  obtain ⟨p, -, hplaced, hlowered⟩ := Project.found_of_inPlace htest
  obtain ⟨r₁, w₁, h₁, htest⟩ := gives_eq_true.mp hlowered
  simp only [Bool.and_eq_true, Bool.not_eq_true'] at htest
  obtain ⟨⟨hset, hdeleted⟩, hcompiled⟩ := htest
  obtain ⟨r₂, w₂, h₂, hsource⟩ := gives_eq_true.mp hcompiled
  obtain ⟨hlower, hcompile, hmapped⟩ := Build.contained (c := .writing p) hplaced
  obtain ⟨hreach, hsame⟩ := hlower _ Project.sound_filled
  rw [after_of_run h₁] at hreach hsame
  have hproper : w₁.files.Proper :=
    ((hreach.mono fun _ he => he.proper).proper Project.proper_filled).files
  have hsame' := (hcompile _ (hreach.sound Project.sound_filled) hproper).2
  rw [after_of_run h₂] at hsame'
  refine ⟨p, r₁, r₂, w₁, w₂, hplaced, h₁, hsame, hset, by simp [hdeleted], h₂, hsame', hsource, ?_⟩
  exact fun e he => hmapped e (hentries e he)

end IntentBuild
