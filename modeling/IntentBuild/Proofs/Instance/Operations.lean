import IntentBuild.Proofs.Instance.Fence
import IntentBuild.Proofs.Operation.Session

/-!
# Operations within an instance

Every operation of the package that is called with nodes of its own stays within the instance
(`Request.within`).  Projects are addressed by their names, and a name leads to nodes of the instance
only, so a build asks for nothing.
-/

namespace IntentBuild

open Op

variable {i : String} {others : String → Bool}

/-! ## Records -/

namespace Cache

open Graph

/-- The record that is stored bears the time of the store. -/
theorem universal_kept (c : Cache) (n : Node) (tool prompt output : String) (json : Option Members)
    (t : Tables) (s : Supply) : (t.kept ((GenerationRecord.draft none n.id tool (c.digest prompt)
      prompt output json none).run s).1).created.offset.isSome := by
  unfold Tables.kept
  split <;> rfl

theorem within_prune (c : Cache) {n : Node} (hn : n.Own others) (tool keep : String) :
    Safe (.within i others) (c.prune n tool keep) := by
  refine .reads (reader_records n (some tool)) fun w l _ hl hw => ?_
  refine (Runs.bind (within_deleteRecords hn hw fun r hr => ?_) fun _ _ _ _ _ => .pure trivial) hw
  exact mem_records hl (List.mem_filter.mp (List.mem_of_mem_take hr)).1

theorem within_store (c : Cache) {n : Node} (hn : n.Own others) (tool prompt output : String)
    (json : Option Members) : Safe (.within i others) (c.store n tool prompt output json) := by
  refine .transaction ?_
  rw [← bind_assoc]
  refine .bind_runs (fun w _ => runs_upsertDraft (takes_draftRecord ..) ⟨?_, ?_⟩)
    fun _ r w' _ hI _ => ((within_prune c hn tool r.id).bind fun _ => .pure _).runs w' hI
  · rw [Tables.kept_nodeId]
    exact hn
  · exact universal_kept ..

theorem within_delete (c : Cache) {n : Node} (hn : n.Own others) (tool prompt : String) :
    Safe (.within i others) (c.delete n tool prompt) := by
  refine .reads (reader_findRecord? _) fun w o _ ho hw => ?_
  have hfound := findRecord?_eq_ok hw ho
  cases o with
  | none => exact Runs.pure trivial hw
  | some r =>
      obtain ⟨hr, hk⟩ := hfound.1 r rfl
      have hnode : r.nodeId = n.id := congrArg RecordKey.node hk
      refine ((runs_deleteRecord fun r' hr' => ?_).bind fun _ _ _ _ _ => .pure trivial) hw
      rw [hr, Option.some.injEq] at hr'
      exact hr' ▸ (congrArg others hnode).trans hn

theorem within_invalidate {n : Node} (hn : n.Own others) :
    Safe (.within i others) (invalidate n) := by
  refine .reads (reader_records n none) fun w l _ hl hw => ?_
  have hdelete : Runs (Event.Within i others) w (Op.transaction do
      for r in l do deleteRecord r.id) fun _ _ => True :=
    Runs.transaction (fun _ h => h) fun w' hw' ht _ =>
      Runs.bind (within_deleteRecords hn hw' fun r hr => ht ▸ mem_records hl hr)
        fun _ _ _ _ _ => .pure trivial
  exact (hdelete.bind fun _ _ _ _ _ => .pure trivial) hw

end Cache

/-! ## Dependencies -/

namespace Manifest

open Graph

theorem own_node {project : Node} (hp : project.Own others) :
    Gives (.within i others) (node project) (Node.Own others) :=
  own_getOrCreate (fun _ h => Option.some.inj h ▸ hp) ..

theorem within_linkDelta {file manifest : Node} (hf : file.Own others) (hm : manifest.Own others)
    (d : DependencyDelta) : Safe (.within i others) (linkDelta file manifest d) := by
  unfold linkDelta
  split
  · exact (within_link hf hm ..).bind fun _ => .pure _
  · exact (within_unlink hf ..).bind fun _ => .pure _

theorem within_applyDeltas {project file : Node} (hp : project.Own others) (hf : file.Own others)
    (deltas : List DependencyDelta) :
    Safe (.within i others) (applyDeltas project file deltas) := by
  refine .transaction ((own_node hp).andThen fun manifest hm => ?_)
  refine (own_require hf).andThen fun current hc => .lift _ fun before => ?_
  refine .bind (.forIn fun d _ => .once (within_linkDelta hc hm d)) fun _ => ?_
  refine (own_setJson hc _).andThen fun _ _ => .lift _ fun known => ?_
  exact .reader (.foldlM (fun _ _ => reader_refreshName ..) _ _) fun union => (own_setJson hm _).safe

theorem within_replaceDeclared {project file : Node} (hp : project.Own others)
    (hf : file.Own others) (declared : Dependencies) :
    Safe (.within i others) (replaceDeclared project file declared) :=
  .reader (reader_require _) fun _ => .lift _ fun _ => .lift _ fun _ => within_applyDeltas hp hf _

theorem within_declared {project : Node} (hp : project.Own others) :
    Safe (.within i others) (declared project) :=
  (own_node hp).andThen fun manifest _ => .of_reader (reader_unionOf manifest)

theorem within_reconcile {project : Node} (hp : project.Own others) :
    Safe (.within i others) (reconcile project) := by
  refine (own_node hp).andThen fun manifest hm => (within_declared hp).bind fun union => ?_
  have put : Safe (.within i others) (do
      let _ ← setJson manifest (withTexts "deps" manifest union)
      return union : Op Dependencies) := (own_setJson hm _).andThen fun _ _ => .pure _
  exact .ite (.ite ((Safe.throw _).bind fun _ => put) put) (.pure _)

end Manifest

namespace DepsFile

open Graph

theorem within_synced {project : Node} (hp : project.Own others) :
    Safe (.within i others) (synced project) :=
  (Manifest.own_node hp).andThen fun _ _ => .of_reader (.lift _ _)

theorem within_sync {project : Node} (hp : project.Own others) :
    Safe (.within i others) (sync project) := by
  refine (Manifest.within_reconcile hp).bind fun deps => (Manifest.own_node hp).andThen
    fun manifest hm => .reader (reader_path project) fun path => ?_
  have rest : Safe (.within i others) (do
      if !isSynced manifest deps then
        let _ ← setJson manifest (Manifest.withTexts "synced" manifest deps)
      return ({ changed := !isSynced manifest deps, path, deps } : Sync)) :=
    .ite ((own_setJson hm _).andThen fun _ _ => .pure _) (.pure _)
  refine .reader (reader_isFile path) fun _ => .ite ?_ rest
  exact (safe_write (fun _ => ⟨trivial, trivial⟩) _).bind fun _ => rest

theorem within_verify {project : Node} (hp : project.Own others) :
    Safe (.within i others) (verify project) :=
  .reader (reader_path _) fun _ => .reader (reader_isFile _) fun _ => .ite
    (.reader (reader_readFile _) fun _ => (within_synced hp).bind fun _ => .ite
      ((safe_notify _).bind fun _ => .throw _) (.pure _)) (.pure _)

end DepsFile

/-! ## Projects and extensions -/

/-- The nodes of the project are none of the others. -/
structure Project.Own (others : String → Bool) (p : Project) : Prop where
  /-- The node of the project. -/
  node : p.node.Own others
  /-- The root of the specifications. -/
  specs : p.specs.Own others
  /-- The root of the intent files. -/
  intent : p.intent.Own others
  /-- The root of the source files. -/
  source : p.source.Own others

namespace Project

open Graph

theorem own_root {project : Node} (hp : project.Own others) (type : NodeType) (name : String)
    (path : Path) : Gives (.within i others) (root project type name path) (Node.Own others) :=
  own_getOrCreate (fun _ h => Option.some.inj h ▸ hp) ..

theorem own_nodes (name : String) (path : Path) :
    Gives (.within i others) (nodes name path) (Project.Own others) := by
  have hroot (p : Node) (h : none = some p) : p.Own others := nomatch h
  refine .transaction ((own_getOrCreate hroot ..).bind fun node hn =>
    .after (.of_reader (reader_path? node)) fun known => ?_)
  have roots : Gives (.within i others) (do
      let specs ← root node .specsRoot specsName (path.child "specs")
      let intent ← root node .intentRoot intentName (path.child "intent")
      let source ← root node .sourceRoot sourceName (path.child "src")
      let _ ← link intent source .implements ""
      return ({ node, specs, intent, source } : Project)) (Project.Own others) := by
    refine (own_root hn ..).bind fun specs hs => (own_root hn ..).bind fun intent hi =>
      (own_root hn ..).bind fun source ht => ?_
    exact .after (within_link hi ht ..) fun _ => .pure ⟨hn, hs, hi, ht⟩
  exact .ite (.after (.throw _) fun _ => roots) roots

theorem own_setup (name : String) (path : Path) :
    Gives (.within i others) (setup name path) (Project.Own others) := by
  have rest : Gives (.within i others) (do
      let full := path.resolve (← Op.files).workingDirectory
      let p ← nodes name full
      for r in [p.specs, p.intent, p.source] do Op.makeDirs (← Graph.pathOf r)
      return p) (Project.Own others) :=
    .after (.of_reader reader_files) fun _ => (own_nodes ..).bind fun p hp => .after
      (.forIn fun _ _ => .bind (.of_reader (reader_pathOf _)) fun _ => .once (safe_makeDirs _))
      fun _ => .pure hp
  exact .ite (.after (.throw _) fun _ => rest) rest

theorem own_find? (name : String) : Gives (.within i others) (find? name) fun o =>
    ∀ p, o = some p → p.Own others := by
  have hroot (p : Node) (h : none = some p) : p.Own others := nomatch h
  refine (own_child? hroot .project name).bind fun o ho => ?_
  cases o with
  | none => exact .pure fun p h => by cases h
  | some node =>
      have hn := ho node rfl
      have hparent (p : Node) (h : some node = some p) : p.Own others := Option.some.inj h ▸ hn
      refine (own_child? hparent .specsRoot specsName).bind fun specs hs => ?_
      refine (own_child? hparent .intentRoot intentName).bind fun intent hi => ?_
      refine (own_child? hparent .sourceRoot sourceName).bind fun source ht => ?_
      split
      · exact .pure fun p h => by cases h; exact ⟨hn, hs _ rfl, hi _ rfl, ht _ rfl⟩
      · exact .pure fun p h => by cases h

theorem own_require (name : String) :
    Gives (.within i others) (require name) (Project.Own others) := by
  refine (own_find? name).bind fun o ho => ?_
  cases o with
  | some p => exact .pure (ho p rfl)
  | none => exact .throw _

end Project

namespace Registry

open Graph

theorem within_install {project : Node} (hp : project.Own others) (e : ExtensionSpec) :
    Safe (.within i others) (install project e) :=
  .transaction ((own_getOrCreate (fun _ h => Option.some.inj h ▸ hp) ..).andThen
    fun _ hc => (own_upsertDerived hc ..).safe)

theorem within_remove {project : Node} (hp : project.Own others) (id : String) :
    Safe (.within i others) (remove project id) := by
  refine (own_child? (fun _ h => Option.some.inj h ▸ hp) ..).andThen fun o ho => ?_
  cases o with
  | none => exact .pure _
  | some container =>
      refine (own_child? (fun _ h => Option.some.inj h ▸ ho container rfl) ..).andThen
        fun o hn => ?_
      cases o with
      | none => exact .pure _
      | some n => exact (within_cascadeDelete (hn n rfl) true).bind fun _ => .pure _

end Registry

end IntentBuild
