import IntentBuild.Proofs.Build.IntentFiles
import IntentBuild.Proofs.Operation.Writing
import IntentBuild.Proofs.Setup

/-!
# What compiling leaves

A unit that succeeds has a source, since a result without a source has errors, and those fail the unit.
So it leaves a source file with its node and the link of the intent file to it (`Compilation.Sourced`).
Different intent files have different source files (`Compilation.sourceRow_injective`), so the unit of
another file leaves all this alone, and after the stage every intent file with a target has its source
(`Compilation.run_eq_ok`).
-/

namespace IntentBuild

open Op

/-! ## Links and texts that stay -/

/-- A change that deletes no edge but those to manifests. -/
def Event.Binds : Event → Prop
  | .dropEdge e => e.type = .dependsOn
  | _ => True

/-- A link of another type stays. -/
theorem lasts_linked {k : EdgeKey} (hk : k.type ≠ .dependsOn) : Lasts Event.Binds fun w =>
    ∃ e, Assoc.get? e.id w.tables.edges = some e ∧ e.key = k := by
  rintro ev w w' hev hw h ⟨e, he, rfl⟩
  refine ⟨e, ?_, rfl⟩
  cases h with
  | @edge _ new t s h hs =>
      obtain ⟨rfl, -⟩ := Tables.insertEdge_eq_ok h
      change Assoc.get? e.id (Assoc.set new.id new w.tables.edges) = some e
      rw [Assoc.get?_set, if_neg]
      · exact he
      · intro hid
        exact hs.fresh (hw.spent (.inr (.inl (hid ▸ Assoc.mem_keys_of_get? he))))
  | @dropEdge _ old hold =>
      change Assoc.get? e.id (Assoc.erase old.id w.tables.edges) = some e
      rw [Assoc.get?_erase, if_neg]
      · exact he
      · intro hid
        rw [← hid, he, Option.some.injEq] at hold
        exact hk (hold ▸ hev.resolve_left id)
  | node h => obtain ⟨rfl, -⟩ := Tables.insertNode_eq_ok h; exact he
  | _ => exact he

/-- A file that is not in the place of the document reads the same while it is left alone. -/
theorem Reach.readText_run {w w' : Workspace} {P : Path} {text : String}
    (hc : Reach (Event.Clears w.files.workingDirectory (w.files.key P)) w w')
    (hkey : w'.files.key P ≠ w'.documentKey) (h : (readText P).run w = .ok text w) :
    (readText P).run w' = .ok text w' := by
  rw [hc.key_eq, hc.documentKey_eq] at hkey
  obtain ⟨-, bytes, hbytes, hdecode⟩ := readText_eq_ok h
  refine Op.readText_run ?_ hdecode
  rw [hc.key_eq, FileTree.bytesAt?_eq_map, hc.fileAt?_eq hkey, ← FileTree.bytesAt?_eq_map, hbytes]

/-- No node goes, no link of a source file, no file, and the content of the node of a source file
stays. -/
def Event.Settles (j : String) : Event → Prop
  | .dropNode _ | .remove _ => False
  | .dropEdge e => e.type = .dependsOn
  | .content old new => old.id = j → old.type = .sourceFile → new.content = old.content
  | _ => True

namespace Event.Settles

variable {j : String} {e : Event}

theorem spares (he : e.Settles j) : e.Spares fun _ => True := by
  cases e <;> first | exact he.elim | trivial

theorem retains (he : e.Settles j) : e.Retains := by
  cases e <;> first | exact he.elim | trivial

theorem binds (he : e.Settles j) : e.Binds := by
  cases e <;> first | exact he | trivial

theorem of_stamps (he : e.Stamps) : e.Settles j := by
  cases e with
  | content => exact fun _ _ => he.2.2
  | _ => exact he.elim

theorem fixesAt (he : e.Settles j) {k : NodeKey} (hk : k.type = .sourceFile) :
    e.Leaves j ∧ e.FixesAt j k Node.content := by
  cases e with
  | dropNode => exact he.elim
  | content => exact ⟨trivial, fun hid hkey => he hid ((congrArg NodeKey.type hkey).trans hk)⟩
  | _ => exact ⟨trivial, trivial⟩

end Event.Settles

namespace Compilation

variable {c : BuildContext} {p : Project} {P S : Path} {f : Indexing.IntentFile} {w w' : Workspace}
  {row : List String} {i j : String}

/-! ## Source files -/

/-- The row of names of the source file of an intent file. -/
def sourceRow (f : Indexing.IntentFile) : List String :=
  (Path.ofText (Path.withoutIntentSuffix f.relative)).names

/-- The source file of an intent file stands at a row of its own. -/
structure HasSource (f : Indexing.IntentFile) : Prop where
  /-- The names can stand in a path and do not lead upwards. -/
  isRow : Graph.IsRow (sourceRow f)
  /-- The path is that of the row. -/
  path : ∀ S : Path, S.child (Path.withoutIntentSuffix f.relative) = S.below (sourceRow f)
  /-- The row is that of the intent file without its ending. -/
  row : ∃ init l, f.row = init ++ [l ++ ".md"] ∧ sourceRow f = init ++ [l]

theorem hasSource_of_mem (ht : w.files.Proper) (h : f ∈ Indexing.listed w.files P) : HasSource f := by
  obtain ⟨hrow, hrelative⟩ := Indexing.row_of_mem_listed ht h
  obtain ⟨init, l, hl, hsource, hproper⟩ := Path.ofText_source hrow.shown hrow.isName
  rw [← hrelative] at hsource
  have hnames : sourceRow f = init ++ [l] := by rw [sourceRow, hsource]
  exact
    { isRow := hnames ▸ ⟨by simp, hproper⟩
      path := fun S => by rw [Path.child_eq (by rw [hsource])]; rfl
      row := ⟨init, l, hl, hnames⟩ }

theorem HasSource.hasParts (h : HasSource f) {root : Node} (hS : root.pathEntry = .path S)
    (hne : S.names ≠ []) : Graph.HasParts root (S.below (sourceRow f)).text (sourceRow f) :=
  .of_below hS hne h.isRow.nonempty h.isRow.proper

theorem HasSource.key (h : HasSource f) (t : FileTree) (S : Path) :
    t.key (S.below (sourceRow f)) = t.key S ++ sourceRow f :=
  t.key_below S fun n hn => (h.isRow.proper n hn).2

/-- Different intent files have different source files. -/
theorem sourceRow_injective (ht : w.files.Proper) {a b : Indexing.IntentFile}
    (ha : a ∈ Indexing.listed w.files P) (hb : b ∈ Indexing.listed w.files P)
    (h : sourceRow a = sourceRow b) : a = b := by
  obtain ⟨init, l, hrow, hsource⟩ := (hasSource_of_mem ht ha).row
  obtain ⟨init', l', hrow', hsource'⟩ := (hasSource_of_mem ht hb).row
  rw [hsource, hsource'] at h
  obtain ⟨rfl, hlast⟩ := List.append_inj' h rfl
  cases hlast
  exact Indexing.eq_of_row_eq ht ha hb (hrow.trans hrow'.symm)

theorem return_not_mem_sourceText {s : String} (h : '\r' ∉ s.toList) : '\r' ∉ (sourceText s).toList := by
  rw [sourceText, String.toList_ofList, List.mem_append]
  rintro (hmem | hmem)
  · exact h (List.mem_reverse.mp ((List.dropWhile_sublist _).subset (List.mem_reverse.mp hmem)))
  · simp at hmem

/-- The source file of an intent file is there at a row of names, and its node is linked to that of the
intent file.  The file reads as the content of the node, unless there is a carriage return in the source
or the document of the graph is in its place. -/
structure Sourced (w : Workspace) (p : Project) (S : Path) (row : List String) (i j : String) : Prop where
  /-- The node stands at the row. -/
  stands : Graph.Stands w Graph.sourceKind p.source.id row j
  /-- The intent file is linked to it. -/
  linked : ∃ e, Assoc.get? e.id w.tables.edges = some e ∧ e.key = ⟨i, j, .implements, ""⟩
  /-- The file is there. -/
  file : w.files.isFile (S.below row) = true
  /-- The file reads as the content. -/
  text : ∃ k source, k.type = .sourceFile ∧ w.Has j k Node.content (some (sourceText source)) ∧
    ('\r' ∉ source.toList → w.files.key (S.below row) ≠ w.documentKey →
      (readText (S.below row)).run w = .ok (sourceText source) w)

/-- The source file stays while its node, its link and its file are left alone. -/
theorem Sourced.reach (h : Sourced w p S row i j) (hw : w.Sound) (hr : Reach (Event.Settles j) w w')
    (hc : Reach (Event.Clears w.files.workingDirectory (w.files.key (S.below row))) w w') :
    Sourced w' p S row i j := by
  obtain ⟨k, source, hk, hcontent, hread⟩ := h.text
  refine ⟨h.stands.reach hw (hr.mono fun _ he => he.spares), ?_, ?_, k, source, hk, ?_, ?_⟩
  · have htype : EdgeType.implements ≠ .dependsOn := by decide
    exact Lasts.reach (lasts_linked (k := ⟨i, j, .implements, ""⟩) htype) hw
      (hr.mono fun _ he => he.binds) h.linked
  · exact (hr.mono fun _ he => he.retains).isFile h.file
  · exact Lasts.reach (lasts_hasAt j k Node.content _) hw (hr.mono fun _ he => he.fixesAt hk) hcontent
  · exact fun hreturn hkey => hc.readText_run hkey (hread hreturn (by rwa [← hc.key_eq, ← hc.documentKey_eq]))

/-- A source file that is written is there with its node and its link. -/
theorem applySource_eq_ok {file : Node} {relative source : String}
    (hS : c.project.source.pathEntry = .path S)
    (hpath : S.child (Path.withoutIntentSuffix relative) = S.below row)
    (hparts : Graph.HasParts c.project.source (S.below row).text row) (hw : w.Sound)
    (h : (applySource c file relative source).run w = .ok ⟨⟩ w') :
    Reach (Event.Spares fun _ => True) w w' ∧ ∃ j, Sourced w' c.project S row file.id j := by
  obtain ⟨S', w₀, hdir, h₁⟩ := bind_eq_ok.mp h
  obtain rfl := (Graph.reader_pathOf _).eq hdir
  cases hS.symm.trans (Graph.pathOf_eq_ok hdir)
  dsimp only at h₁
  rw [hpath] at h₁
  obtain ⟨b, w₁, hwrite, h₂⟩ := bind_eq_ok.mp h₁
  obtain ⟨n, w₂, hplace, h₃⟩ := bind_eq_ok.mp h₂
  obtain ⟨n', w₃, hput, h₄⟩ := bind_eq_ok.mp h₃
  obtain ⟨e, w₄, hlink, h₅⟩ := bind_eq_ok.mp h₄
  cases h₅
  have hwritten := ((runs_writeIfChanged (A := Event.Spares fun _ => True) trivial).ok hw hwrite).1
  have hw₁ := hwritten.sound hw
  obtain ⟨hplaced, hn, hstands⟩ := (Graph.runs_placeOf hparts).ok hw₁ hplace
  have hw₂ := hplaced.sound hw₁
  obtain ⟨hputting, old, hold, hrevised, htables⟩ := (Graph.runs_setContent (A := fun e =>
    e.Spares (fun _ => True) ∧ ¬ e.Writes) fun _ _ _ _ => ⟨trivial, id⟩).ok hw₂ hput
  have hw₃ := hputting.sound hw₂
  obtain ⟨hlinking, hkey, hlinked⟩ := (Graph.runs_link (A := fun e =>
    e.Spares (fun _ => True) ∧ ¬ e.Writes) fun _ _ => ⟨trivial, id⟩).ok hw₃ hlink
  have hafter : Reach (fun e => e.Spares (fun _ => True) ∧ ¬ e.Writes) w₁ w' :=
    (hplaced.mono fun e he => by cases e <;> first | exact he.elim | exact ⟨trivial, id⟩).trans
      (hputting.trans hlinking)
  have hclears : Reach (Event.Clears w₁.files.workingDirectory (w₁.files.key (S.below row))) w₁ w' :=
    hafter.mono fun _ he => Event.clears_of_not_writes he.2
  refine ⟨hwritten.trans (hafter.mono fun _ he => he.1), n.id, ?_, ⟨e, hlinked.get?, hkey⟩, ?_, ?_⟩
  · exact (hstands.reach hw₂ (hputting.mono fun _ he => he.1)).reach hw₃ (hlinking.mono fun _ he => he.1)
  · exact (hafter.mono fun _ he => Event.retains_of_not_writes he.2).isFile (isFile_of_written hwrite)
  · rw [hn, Option.some.injEq] at hold
    subst hold
    obtain ⟨d, name, hkeyed⟩ := hstands.keyed
    refine ⟨n.key, source, congrArg NodeKey.type ((Workspace.Keyed.of_node? hn).key_eq hkeyed),
      ⟨n', ?_, hrevised.key, hrevised.content⟩, fun hreturn hne => ?_⟩
    · rw [hlinked.node?, htables, Tables.node?_putNode, if_pos hrevised.id.symm]
    · exact hclears.readText_run hne (readText_of_written (return_not_mem_sourceText hreturn) hwrite)

/-! ## Units -/

end Compilation

/-- The changes that leave the node of a source file at a row alone. -/
def Regime.settling (source : String) (row : List String) (j : String) : Regime where
  admits := Event.Settles j
  holds w := w.Sound ∧ Graph.Stands w Graph.sourceKind source row j
  lasts hw hr h := ⟨hr.sound hw, h.2.reach hw (hr.mono fun _ he => he.spares)⟩

namespace Regime

variable {source j : String} {row : List String}

theorem declares_settling : (settling source row j).Declares where
  manifest _ _ _ := trivial
  redeclare _ _ hr := fun _ _ => hr.content
  link _ := trivial
  unlink _ he := he

theorem records_settling : (settling source row j).Records where
  keep _ _ _ _ hc := fun _ _ => hc
  calls := trivial
  record _ := trivial
  dropRecord _ := trivial

theorem derives_settling (file : Node) {type : NodeType} (ht : type ≠ .sourceFile) :
    (settling source row j).Derives file type where
  made _ _ _ _ := trivial
  changed _ _ hn _ := fun _ h => absurd (hn.symm.trans h) ht

/-- The unit of an intent file with another source file leaves the node alone. -/
theorem compiles_settling {c : BuildContext} {S : Path} {f : Indexing.IntentFile} {file : Node}
    (hS : c.project.source.pathEntry = .path S) (hne : S.names ≠ []) (hf : Compilation.HasSource f)
    (hrow : Compilation.sourceRow f ≠ row) (hfile : file.id ≠ j) :
    (settling c.project.source.id row j).Compiles c file f.relative where
  toDeclares := declares_settling
  toDerives := derives_settling file (by decide)
  places _ _ _ _ _ := trivial
  source _ _ := trivial
  output {w P parts old new} hI hP hparts hstands _ _ := by
    intro hid _
    cases hS.symm.trans hP
    rw [hf.path] at hparts
    subst hid
    exact absurd (((hf.hasParts hS hne).unique hparts).trans (hstands.names_eq hI.1 hI.2)) hrow
  input _ _ ho _ _ := fun hid _ => absurd (ho.symm.trans hid) hfile

end Regime

namespace Compilation

variable {c : BuildContext} {p : Project} {P S : Path} {f : Indexing.IntentFile} {w w' : Workspace}
  {s : Shared} {text : String} {file : Node} {i j : String}

theorem generative_unit : (unit c s f text file).Generative :=
  ⟨.pure _, ⟨file, _, _, rfl, by decide⟩, fun _ _ _ => rfl, .pure _, heedless_steps c file _ _⟩

/-- The intent file has its result, and its source file. -/
def Compiled (p : Project) (S : Path) (f : Indexing.IntentFile) (w : Workspace) : Prop :=
  ∃ i j, Graph.Stands w Graph.intentKind p.intent.id f.row i ∧
    Graph.HasChild w i .compilerData dataName ∧ Sourced w p S (sourceRow f) i j

/-- A result that has passed the check and has no errors has a source. -/
theorem source_of_check {r : CompileResult} (h : check r = .ok ()) (hclean : r.diagnostics.errors = []) :
    ∃ source, r.source = some source := by
  cases hsource : r.source with
  | some source => exact ⟨source, rfl⟩
  | none =>
      rw [check, hsource, hclean] at h
      cases h

/-- A node of an intent file is none of a source file. -/
theorem ne_of_stands {intent source : String} {row row' : List String}
    (hi : Graph.Stands w Graph.intentKind intent row i)
    (hj : Graph.Stands w Graph.sourceKind source row' j) : i ≠ j := by
  rintro rfl
  obtain ⟨_, _, hi⟩ := hi.keyed
  obtain ⟨_, _, hj⟩ := hj.keyed
  cases hi.key_eq hj

/-- A result with a source is applied to the source file first. -/
theorem apply_eq {r : CompileResult} {source : String} (hsource : r.source = some source) :
    (unit c s f text file).apply r = applySource c file f.relative source >>= fun _ =>
      declare c file r >>= fun _ => keep file text r := by
  have happly : (unit c s f text file).apply r = (do
      for x in (r.source.map (applySource c file f.relative)).toList ++
        [declare c file r, keep file text r] do x : Op Unit) := rfl
  rw [happly, hsource, Work.forSteps_append, Work.forSteps_cons (declare c file r)]
  simp only [Option.map_some, Option.toList_some, Work.forSteps_singleton]

/-- What comes after the source file leaves it alone, and makes the node of the result. -/
theorem declared_eq_ok {r : CompileResult} {row : List String} (hw : w.Sound)
    (hstands : Graph.Stands w Graph.sourceKind c.project.source.id row j) (hfile : file.id ≠ j)
    (h : (declare c file r >>= fun _ => keep file text r).run w = .ok ⟨⟩ w') :
    Reach (Event.Settles j) w w' ∧ Reach (fun e => ¬ e.Writes) w w' ∧
      Graph.HasChild w' file.id .compilerData dataName := by
  have hsettles : Safe (.settling c.project.source.id row j)
      (declare c file r >>= fun _ => keep file text r) :=
    (safe_declare Regime.declares_settling ..).bind fun _ => safe_keep
      (Regime.derives_settling file (by decide))
      (fun _ _ ho _ _ hid _ => absurd (ho.symm.trans hid) hfile) ..
  have hleaves : Safe (.only fun e => ¬ e.Writes) (declare c file r >>= fun _ => keep file text r) :=
    (safe_declare (Regime.declares_only fun _ => id) ..).bind fun _ => safe_keep
      (Regime.derives_only (fun _ => id) file _) (fun _ _ _ _ _ => id) ..
  obtain ⟨hsettled, -⟩ := (hsettles.runs w ⟨hw, hstands⟩).ok hw h
  refine ⟨hsettled, ((hleaves.runs w trivial).ok hw h).1, ?_⟩
  obtain ⟨_, w₁, hdeltas, h₁⟩ := bind_eq_ok.mp h
  obtain ⟨_, w₂, hcontent, h₂⟩ := bind_eq_ok.mp h₁
  obtain ⟨d, w₃, hderived, h₃⟩ := bind_eq_ok.mp h₂
  cases h₃
  have hw₁ := (((safe_declare Regime.declares_any ..).runs w trivial).ok hw hdeltas).1.sound hw
  have hw₂ := ((Graph.runs_setContent (A := Event.Any) fun _ _ _ _ => trivial).ok hw₁ hcontent).1.sound hw₁
  obtain ⟨hreach, hkey, -, hd⟩ := (Graph.runs_upsertDerived (A := Event.Any) (fun _ _ _ _ => trivial)
    fun _ _ _ _ => trivial).ok hw₂ hderived
  exact ⟨d.id, d, hd, by rw [hkey, hreach.instanceId_eq]⟩

/-- A unit that succeeds leaves the result and the source file of its intent file. -/
theorem compiled_of_unit {r : Runner} (hS : c.project.source.pathEntry = .path S) (hne : S.names ≠ [])
    (hf : HasSource f) (hw : w.Sound)
    (hfile : Graph.Stands w Graph.intentKind c.project.intent.id f.row file.id)
    {report : UnitReport CompileResult}
    (h : ((unit c s f text file).run r).run w = .ok report w') : Compiled c.project S f w' := by
  have hfits : (unit c s f text file).Fits .any :=
    fits_unit (Regime.compiles_only (fun _ _ => trivial) file fun _ _ => trivial) ..
  obtain ⟨w₁, w₂, hdone⟩ := Work.run_eq_ok generative_unit hfits hw h
  obtain ⟨n, hcheck⟩ := hdone.checked
  obtain ⟨source, hsource⟩ := source_of_check hcheck hdone.clean
  have happlied := hdone.applied
  rw [apply_eq hsource] at happlied
  obtain ⟨_, w₃, happly, hdeclared⟩ := bind_eq_ok.mp happlied
  have hw₁ := hdone.prepared.sound hw
  obtain ⟨hspares, j, hsourced⟩ := applySource_eq_ok hS (hf.path S) (hf.hasParts hS hne) hw₁ happly
  have hw₃ := hspares.sound hw₁
  have hstands : Graph.Stands w₃ Graph.intentKind c.project.intent.id f.row file.id :=
    (hfile.reach hw (hdone.prepared.mono fun _ he => he.spares)).reach hw₁ hspares
  obtain ⟨hsettled, hleft, hchild⟩ := declared_eq_ok hw₃ hsourced.stands (ne_of_stands hstands
    hsourced.stands) hdeclared
  have hw₂ := hsettled.sound hw₃
  have hstamped : Reach (Event.Settles j) w₂ w' := hdone.stamped.mono fun _ he => .of_stamps he
  have hspared : Reach (Event.Spares fun _ => True) w₂ w' := hdone.stamped.mono fun _ he => he.spares
  refine ⟨file.id, j, ?_, hchild.reach hw₂ hspared, ?_⟩
  · exact (hstands.reach hw₃ (hsettled.mono fun _ he => he.spares)).reach hw₂ hspared
  · refine hsourced.reach hw₃ (hsettled.trans hstamped) ?_
    exact (hleft.mono fun _ he => Event.clears_of_not_writes he).trans
      (hdone.stamped.mono fun _ he => he.clears _ _)

/-- An intent file stays compiled while the node of its source file, its link and its file are left
alone. -/
theorem Compiled.reach (h : Compiled p S f w) (hw : w.Sound)
    (hr : ∀ j, Graph.Stands w Graph.sourceKind p.source.id (sourceRow f) j →
      Reach (Event.Settles j) w w')
    (hc : Reach (Event.Clears w.files.workingDirectory (w.files.key (S.below (sourceRow f)))) w w') :
    Compiled p S f w' := by
  obtain ⟨i, j, hs, hchild, hsourced⟩ := h
  have hsettled := hr j hsourced.stands
  have hspared : Reach (Event.Spares fun _ => True) w w' := hsettled.mono fun _ he => he.spares
  exact ⟨i, j, hs.reach hw hspared, hchild.reach hw hspared, hsourced.reach hw hsettled hc⟩

/-! ## The stage -/

/-- The unit is that of an intent file with a node. -/
def Made (c : BuildContext) (w : Workspace) (f : Indexing.IntentFile) (u : Work CompileResult) : Prop :=
  ∃ s text file, u = unit c s f text file ∧
    Graph.Stands w Graph.intentKind c.project.intent.id f.row file.id

/-- A list that goes along with its nodes, which stand at its rows. -/
theorem stands_of_pairs {root : String} {fs : List Indexing.IntentFile}
    {files : List (Indexing.IntentFile × Node)}
    (h : List.Forall₂ (fun f e => ∃ n v, Graph.Stands w Graph.intentKind root f.row n.id ∧
      (pure (f, n) : Op _).run v = .ok e v) fs files) :
    files.map Prod.fst = fs ∧ ∀ e ∈ files, Graph.Stands w Graph.intentKind root e.1.row e.2.id := by
  constructor
  · rw [← List.forall₂_eq_eq_eq, List.forall₂_map_left_iff]
    refine h.flip.imp fun e f hf => ?_
    obtain ⟨_, _, -, hend⟩ := hf
    cases hend
    rfl
  · intro e he
    obtain ⟨f, -, n, v, hs, hend⟩ := Reader.mem_of_forall₂ h he
    cases hend
    exact hs

/-- The units are made for the intent files that are listed. -/
theorem works_eq_ok (hP : c.project.intent.pathEntry = .path P) (hne : P.names ≠ []) (hw : w.Sound)
    (ht : w.files.Proper) (hb : Graph.Backed w Graph.intentKind c.project.intent.id P)
    {us : List (Work CompileResult)} (h : (works c).run w = .ok us w') :
    w'.Sound ∧ Reach (Event.Spares fun _ => True) w w' ∧
      Graph.Backed w' Graph.intentKind c.project.intent.id P ∧
        List.Forall₂ (Made c w') (Indexing.listed w.files P) us := by
  obtain ⟨fs, w₁, hfs, h₁⟩ := bind_eq_ok.mp h
  obtain ⟨hlisting, rfl⟩ := Indexing.intentFiles_eq_ok hP hne hw ht hfs
  have hw₁ := hlisting.sound hw
  obtain ⟨files, w₂, hfiles, h₂⟩ := bind_eq_ok.mp h₁
  have hrow : ∀ f ∈ Indexing.listed w.files P,
      Graph.HasParts c.project.intent f.path.text f.row := fun f hf =>
    (Indexing.row_of_mem_listed ht hf).1.hasParts hP hne
  obtain ⟨hmade, hplaced, hcome⟩ := (Graph.rows_mapM_placeOf (w := w₁) (by decide) hrow
    fun (f : Indexing.IntentFile) file => .pure (f, file)).ok hw₁ hfiles
  have hw₂ := hmade.sound hw₁
  have hbacked := Indexing.backed_of_places hw hb ht hlisting ((hlisting.of_quiet).trans
    (hmade.mono fun e ⟨_, he⟩ => by cases e <;> first | exact he.elim | trivial)) hcome
  obtain ⟨indexed, w₃, hindexed, h₃⟩ := bind_eq_ok.mp h₂
  obtain rfl := (Reader.mapM reader_indexedTree? _).eq hindexed
  obtain ⟨deps, w₄, hdeps, h₄⟩ := bind_eq_ok.mp h₃
  have hsynced := (((DepsFile.safe_synced Regime.declares_upholding _).runs w₃ trivial).ok hw₂ hdeps).1
  obtain ⟨tool, w₅, htool, h₅⟩ := bind_eq_ok.mp h₄
  obtain rfl := (c.reader_toolConfig _).eq htool
  have hwork (s : Shared) (f : Indexing.IntentFile × Node) : Reader (work c s f) :=
    (reader_readText _).bind fun _ => .pure _
  have hunits := Reader.forall₂_of_mapM (hwork _) h₅
  obtain rfl := (Reader.mapM (hwork _) _).eq h₅
  obtain ⟨hfirst, hstands⟩ := stands_of_pairs hplaced
  refine ⟨hsynced.sound hw₂, ?_, hbacked.upheld hw₂ hsynced, ?_⟩
  · exact (hlisting.of_quiet).trans ((hmade.mono fun _ ⟨_, he⟩ => he.spares).trans
      hsynced.spares_of_upholds)
  · rw [← hfirst, List.forall₂_map_left_iff]
    refine ((List.forall₂_and_left _ _).mpr ⟨hstands, hunits⟩).imp fun e u hu => ?_
    obtain ⟨text, _, -, hend⟩ := bind_eq_ok.mp hu.2
    cases hend
    exact ⟨_, text, e.2, rfl, hu.1.reach hw₂ hsynced.spares_of_upholds⟩

/-- The unit of an intent file leaves what another one is compiled to alone. -/
theorem Compiled.other {r : Runner} {a : Indexing.IntentFile} {u : Work CompileResult}
    {report : UnitReport CompileResult} {v : Workspace} (h : Compiled c.project S f v)
    (hS : c.project.source.pathEntry = .path S) (hne : S.names ≠ []) (ha : HasSource a) (hf : HasSource f)
    (hsource : sourceRow a ≠ sourceRow f) (hv : v.Sound) (hu : Made c v a u)
    (hrun : (u.run r).run v = .ok report w') : Compiled c.project S f w' := by
  obtain ⟨s, text, file, rfl, hfile⟩ := hu
  refine h.reach hv (fun j hj => ?_) ?_
  · have hfits : (unit c s a text file).Fits (.settling c.project.source.id (sourceRow f) j) :=
      fits_unit (Regime.compiles_settling hS hne ha hsource (ne_of_stands hfile hj)) ..
    exact (((hfits.run Regime.records_settling r).runs v ⟨hv, hj⟩).ok hv hrun).1
  · have hfits : (unit c s a text file).Fits (.only (Event.Clears v.files.workingDirectory
        (v.files.key (S.below (sourceRow f))))) := by
      refine fits_unit (Regime.compiles_only (fun _ he => Event.clears_of_not_writes he) file
        fun hP text => ?_) ..
      cases hS.symm.trans hP
      rw [ha.path]
      change v.files.key _ ≠ _
      rw [ha.key, hf.key]
      exact fun heq => hsource (List.append_cancel_left heq)
    exact (((hfits.run (Regime.records_only fun _ he => Event.clears_of_not_writes he) r).runs v
      trivial).ok hv hrun).1

/-- After compiling one unit at a time, every intent file in the graph has its file, and those with a
target have their results and their source files. -/
theorem run_eq_ok (hone : c.runner.concurrency ≤ 1) (hP : c.project.intent.pathEntry = .path P) (hne : P.names ≠ [])
    (hS : c.project.source.pathEntry = .path S) (hne' : S.names ≠ []) (hw : w.Sound)
    (ht : w.files.Proper) (hb : Graph.Backed w Graph.intentKind c.project.intent.id P) {r : StageReport}
    (h : (run c).run w = .ok r w') :
    Reach (Event.Spares fun _ => True) w w' ∧ Graph.Backed w' Graph.intentKind c.project.intent.id P ∧
      ∀ f ∈ Indexing.listed w.files P, Compiled c.project S f w' := by
  obtain ⟨us, w₁, hworks, h⟩ := bind_eq_ok.mp h
  obtain ⟨reports, w₂, hall, h⟩ := bind_eq_ok.mp h
  cases h
  obtain ⟨hw₁, hspared, hbacked, hmade⟩ := works_eq_ok hP hne hw ht hb hworks
  have fits {f : Indexing.IntentFile} {u : Work CompileResult} (hu : Made c w₁ f u) : u.Fits .upholding := by
    obtain ⟨s, text, file, rfl, -⟩ := hu
    exact fits_unit
      { toDeclares := Regime.declares_upholding
        toDerives := Regime.derives_upholding file (by decide)
        places := Regime.places_upholding _ (by decide) (by decide)
        source := fun _ _ => ⟨trivial, trivial, trivial⟩
        output := fun _ _ _ _ _ _ => ⟨trivial, trivial, trivial⟩
        input := fun _ _ _ _ _ => ⟨trivial, trivial, trivial⟩ } ..
  have made {f : Indexing.IntentFile} {u : Work CompileResult} {v : Workspace} (hu : Made c w₁ f u)
      (hreach : Reach Event.Upholds w₁ v) : Made c v f u := by
    obtain ⟨s, text, file, rfl, hs⟩ := hu
    exact ⟨s, text, file, rfl, hs.reach hw₁ hreach.spares_of_upholds⟩
  have hunits := Work.runAll_each (R := .upholding) (D := Compiled c.project S) hone Regime.records_upholding
    (fun u hu => by
      obtain ⟨_, -, hf⟩ := Reader.mem_of_forall₂ hmade hu
      exact fits hf) hw₁ trivial (Indexing.nodup_listed ht P) hmade
    (fun f hf u v v' report hu hv hreach hrun => by
      obtain ⟨s, text, file, rfl, hs⟩ := made hu hreach
      exact compiled_of_unit hS hne' (hasSource_of_mem ht hf) hv hs hrun)
    (fun f hf a ha hne u v v' report hu hv hreach hrun hD =>
      hD.other hS hne' (hasSource_of_mem ht ha) (hasSource_of_mem ht hf)
        (fun heq => hne (sourceRow_injective ht ha hf heq)) hv (made hu hreach) hrun) hall
  exact ⟨hspared.trans hunits.1.spares_of_upholds, hbacked.upheld hw₁ hunits.1, hunits.2⟩

end Compilation

end IntentBuild
