import IntentBuild.Build.Run
import IntentBuild.Proofs.Operation.Safe

/-!
# Operations that do not heed the build

A build finds out that it was cancelled by one check only (`Work.failIfCancelled`), and nothing else
fails with this fault.  An operation without the check is *heedless* (`Op.Heedless`): it may fail
for any other reason.  There is a rule for every way in which operations are put together.  All
operations on files, the graph, the cache and the dependencies are heedless, and so is the
application of a result in every stage.

They are heedless of everything else that only a build fails with (`Failure.OfBuild`), such as the
errors of a result.
-/

namespace IntentBuild

/-- The failure is the one that the check for a cancellation gives. -/
def Failure.IsCancellation (e : Failure) : Prop := ∃ place, e = .build (.cancelled place)

/-- The failure is that of a path without a place below a root. -/
def Failure.IsPath (e : Failure) : Prop := ∃ fault, e = .path fault

/-- A class of failures that neither the file system nor the tables of the graph give. -/
class Failure.Apart (F : Failure → Prop) : Prop where
  /-- They come from a build, or from the places of files. -/
  out : ∀ {e}, F e → (∃ b, e = .build b) ∨ ∃ p, e = .path p

/-- A class of failures that only a build gives. -/
class Failure.OfBuild (F : Failure → Prop) : Prop where
  /-- They come from a build. -/
  out : ∀ {e}, F e → ∃ b, e = .build b

instance {F : Failure → Prop} [hF : Failure.OfBuild F] : Failure.Apart F := ⟨fun h => .inl (hF.out h)⟩

instance : Failure.OfBuild Failure.IsCancellation := ⟨fun ⟨_, h⟩ => ⟨_, h⟩⟩

instance : Failure.Apart Failure.IsPath := ⟨fun ⟨_, h⟩ => .inr ⟨_, h⟩⟩

namespace Op

variable {α β ε : Type} {F : Failure → Prop}

/-- The operation never fails with a failure of a class. -/
structure Avoids (F : Failure → Prop) (x : Op α) : Prop where
  /-- Every failure is another one. -/
  out : ∀ {w e w'}, x.run w = .error e w' → ¬ F e

/-- The operation never fails because the build was cancelled. -/
abbrev Heedless (x : Op α) : Prop := Avoids Failure.IsCancellation x

/-- Such a failure is not in the class. -/
theorem apart [hF : Failure.Apart F] {e : Failure} (hb : ∀ b, e ≠ .build b)
    (hp : ∀ p, e ≠ .path p) : ¬ F e := by
  intro he
  rcases hF.out he with ⟨b, h⟩ | ⟨p, h⟩
  · exact hb b h
  · exact hp p h

/-- A failure that does not come from a build is not in the class. -/
theorem outside [hF : Failure.OfBuild F] {e : Failure} (hb : ∀ b, e ≠ .build b) : ¬ F e :=
  fun he => (hF.out he).elim hb

namespace Avoids

theorem pure (a : α) : Avoids F (Pure.pure a) := ⟨nofun⟩

theorem throw {e : Failure} (he : ¬ F e) : Avoids F (MonadExcept.throw e : Op α) :=
  ⟨fun h => by cases h; exact he⟩

theorem get : Avoids F (MonadState.get : Op Workspace) := ⟨nofun⟩

theorem modify (f : Workspace → Workspace) : Avoids F (modify f : Op PUnit) := ⟨nofun⟩

theorem bind {x : Op α} {f : α → Op β} (hx : Avoids F x) (hf : ∀ a, Avoids F (f a)) :
    Avoids F (x >>= f) where
  out {w _ _} h := by
    cases hxw : x.run w with
    | ok a w' => rw [bind_ok hxw] at h; exact (hf a).out h
    | error e w' => rw [bind_error hxw] at h; cases h; exact hx.out hxw

/-- A value that is needed fails for its own reasons only. -/
theorem lift {f : ε → Failure} {r : Except ε α} (hr : ∀ e, r = .error e → ¬ F (f e)) :
    Avoids F (Op.lift f r) := by
  cases r with
  | ok a => exact .pure a
  | error e => exact .throw (hr e rfl)

theorem map {x : Op α} {f : α → β} (hx : Avoids F x) : Avoids F (f <$> x) := by
  rw [← bind_pure_comp]
  exact hx.bind fun _ => .pure _

theorem ite {c : Prop} [Decidable c] {x y : Op α} (hx : Avoids F x) (hy : Avoids F y) :
    Avoids F (if c then x else y) := by
  split
  · exact hx
  · exact hy

theorem mapM {f : α → Op β} (hf : ∀ a, Avoids F (f a)) (l : List α) : Avoids F (l.mapM f) := by
  induction l with
  | nil => exact pure []
  | cons a l ih =>
      rw [List.mapM_cons]
      exact (hf a).bind fun b => ih.bind fun bs => pure (b :: bs)

theorem foldlM {f : β → α → Op β} (hf : ∀ b a, Avoids F (f b a)) (l : List α) (b : β) :
    Avoids F (l.foldlM f b) := by
  induction l generalizing b with
  | nil => exact pure b
  | cons a l ih => exact (hf b a).bind fun b => ih b

theorem forIn {l : List β} {body : β → PUnit → Op (ForInStep PUnit)}
    (h : ∀ b ∈ l, Avoids F (body b ⟨⟩)) : Avoids F (ForIn.forIn l PUnit.unit body) := by
  induction l with
  | nil => exact pure PUnit.unit
  | cons b l ih =>
      rw [List.forIn_cons]
      refine (h b (.head _)).bind fun s => ?_
      cases s with
      | done => exact pure _
      | yield => exact ih fun c hc => h c (.tail _ hc)

/-- A step of a loop that is one operation. -/
theorem once {x : Op α} (hx : Avoids F x) :
    Avoids F (x >>= fun _ => Pure.pure (.yield ⟨⟩) : Op (ForInStep PUnit)) :=
  hx.bind fun _ => .pure _

end Avoids

/-! ## Files -/

theorem avoids_notify (n : Notice) : Avoids F (notify n) := .modify _

theorem avoids_complete (d : Draft α) : Avoids F (complete d) := ⟨nofun⟩

theorem avoids_files : Avoids F files := .bind .get fun _ => .pure _

theorem avoids_setFiles (t : FileTree) : Avoids F (setFiles t) := .modify _

theorem avoids_isFile (p : Path) : Avoids F (isFile p) := avoids_files.bind fun _ => .pure _

theorem heedless_readText [Failure.OfBuild F] (p : Path) : Avoids F (readText p) :=
  avoids_files.bind fun _ => .bind (.lift fun _ _ => outside nofun) fun _ =>
    .lift fun _ _ => outside nofun

theorem heedless_changedAt [Failure.OfBuild F] (p : Path) : Avoids F (changedAt p) :=
  avoids_files.bind fun _ => .bind (.lift fun _ _ => outside nofun) fun _ => .pure _

theorem avoids_makeDirs [Failure.Apart F] (p : Path) : Avoids F (makeDirs p) :=
  avoids_files.bind fun _ => .bind (.lift fun _ _ => apart nofun nofun) fun _ => avoids_setFiles _

theorem heedless_writeIfChanged [Failure.OfBuild F] (p : Path) (text : String) :
    Avoids F (writeIfChanged p text) := by
  have write (same : Bool) : Avoids F (if same then return false
      else do
        makeDirs p.parent
        setFiles (← lift .file ((← files).write p (FileTree.textContent text)))
        return true) :=
    .ite (.pure _) <| (avoids_makeDirs _).bind fun _ => avoids_files.bind fun _ =>
      .bind (.lift fun _ _ => outside nofun) fun _ => (avoids_setFiles _).bind fun _ => .pure _
  exact (avoids_isFile p).bind fun _ =>
    .ite ((heedless_readText p).bind fun _ => write _) (write false)

theorem heedless_writeObject [Failure.OfBuild F] (p : Path) (ms : Members) :
    Avoids F (writeObject p ms) :=
  heedless_writeIfChanged _ _

/-! ## Changes of the graph -/

theorem avoids_tables : Avoids F tables := .bind .get fun _ => .pure _

theorem avoids_save [Failure.Apart F] : Avoids F save :=
  .bind .get fun _ => (avoids_makeDirs _).bind fun _ => avoids_files.bind fun _ =>
    .bind (.lift fun _ _ => apart nofun nofun) fun _ => (avoids_setFiles _).bind fun _ => .modify _

theorem avoids_commit [Failure.Apart F] (t : Tables) : Avoids F (commit t) :=
  (Avoids.modify _).bind fun _ => .bind .get fun _ => .ite avoids_save (.pure _)

theorem avoids_endTransaction [Failure.Apart F] : Avoids F endTransaction :=
  (Avoids.modify _).bind fun _ => .bind .get fun _ => .ite avoids_save (.pure _)

theorem Avoids.transaction [Failure.Apart F] {x : Op α} (hx : Avoids F x) :
    Avoids F (transaction x) where
  out {w _ _} h := by
    rw [transaction_eq] at h
    cases hxw : x.run (w.atDepth (w.graph.depth + 1)) with
    | ok a w₁ =>
        rw [hxw] at h
        cases he : endTransaction.run w₁ with
        | ok u w₂ => simp only [he] at h; cases h
        | error e w₂ => simp only [he] at h; cases h; exact avoids_endTransaction.out he
    | error e w₁ =>
        rw [hxw] at h
        cases he : endTransaction.run w₁ with
        | ok u w₂ => simp only [he] at h; cases h; exact hx.out hxw
        | error e w₂ => simp only [he] at h; cases h; exact avoids_endTransaction.out he

theorem heedless_remove [Failure.OfBuild F] : ∀ r : Tables.Removal, Avoids F (remove r)
  | .absent => .pure _
  | .done _ => (avoids_commit _).bind fun _ => .pure _
  | .noKey _ => (Avoids.modify _).bind fun _ => .throw (outside nofun)
  | .refused _ => .throw (outside nofun)

end Op

open Op

variable {F : Failure → Prop}

/-! ## The graph -/

namespace Graph

theorem heedless_find? [Failure.OfBuild F] (id : String) :
    Avoids F (find? id) := avoids_tables.bind fun _ => .pure _

theorem heedless_require [Failure.OfBuild F] (id : String) : Avoids F (require id) :=
  (heedless_find? id).bind fun
    | some _ => .pure _
    | none => .throw (outside nofun)

theorem avoids_child? (parent : Option Node) (type : NodeType) (name : String) :
    Avoids F (child? parent type name) :=
  .bind (.bind .get fun _ => .pure _) fun _ => avoids_tables.bind fun _ => .pure _

theorem heedless_children [Failure.OfBuild F] (parent : Node) (type : Option NodeType) :
    Avoids F (children parent type) :=
  avoids_tables.bind fun _ => .pure _

theorem heedless_edgesFrom [Failure.OfBuild F] (n : Node) (type : Option EdgeType) :
    Avoids F (edgesFrom n type) :=
  avoids_tables.bind fun _ => .pure _

theorem heedless_edgesTo [Failure.OfBuild F] (n : Node) (type : Option EdgeType) :
    Avoids F (edgesTo n type) :=
  avoids_tables.bind fun _ => .pure _

theorem heedless_entryOf [Failure.OfBuild F] {α : Type} (id : Option String)
    (table : List (String × α)) : Avoids F (entryOf id table) := by
  unfold entryOf
  split
  · exact .pure _
  · split
    · exact .pure _
    · exact .throw (outside nofun)

theorem heedless_findEdge? [Failure.OfBuild F] (k : EdgeKey) : Avoids F (findEdge? k) :=
  avoids_tables.bind fun _ => heedless_entryOf _ _

theorem heedless_findRecord? [Failure.OfBuild F] (k : RecordKey) : Avoids F (findRecord? k) :=
  avoids_tables.bind fun _ => heedless_entryOf _ _

theorem heedless_records [Failure.OfBuild F] (n : Node) (tool : Option String) :
    Avoids F (records n tool) := by
  refine avoids_tables.bind fun t => .lift fun e he => ?_
  unfold oldestFirst at he
  split at he
  · cases he
  · split at he <;> cases he
    exact outside nofun

theorem heedless_path? [Failure.OfBuild F] (n : Node) : Avoids F (path? n) := by
  unfold path?
  split
  · exact .pure _
  · exact .pure _
  · exact .throw (outside nofun)

theorem heedless_pathOf [Failure.OfBuild F] (n : Node) : Avoids F (pathOf n) :=
  (heedless_path? n).bind fun
    | some _ => .pure _
    | none => .throw (outside nofun)

theorem heedless_depthBound [Failure.OfBuild F] : Avoids F depthBound := avoids_tables.bind fun _ => .pure _

theorem avoids_membersHash [Failure.Apart F] (json : Option Members) :
    Avoids F (Op.lift (fun e => e) (membersHash json)) := by
  refine .lift fun e he => ?_
  unfold membersHash at he
  split at he
  · cases he
  · split at he <;> cases he
    exact apart nofun nofun

theorem avoids_checkName [Failure.Apart F] (name : String) :
    Avoids F (Op.lift (fun e => e) (checkName name)) := by
  refine .lift fun e he => ?_
  unfold checkName at he
  split at he <;> cases he
  exact apart nofun nofun

theorem avoids_getOrCreate [Failure.Apart F] (parent : Option Node) (type : NodeType)
    (name : String) (json : Option Members) : Avoids F (getOrCreate parent type name json) := by
  refine .transaction ((avoids_child? _ _ _).bind fun o => ?_)
  cases o with
  | some n => exact .pure n
  | none =>
      exact (avoids_membersHash _).bind fun _ => (avoids_checkName _).bind fun _ =>
        .bind (.bind .get fun _ => .pure _) fun _ => (avoids_complete _).bind fun _ =>
          avoids_tables.bind fun _ => .bind (.lift fun _ _ => apart nofun nofun) fun _ =>
            (avoids_commit _).bind fun _ => .pure _

theorem heedless_setContent [Failure.OfBuild F] (n : Node) (content : Change String) (json : Change Members)
    (stamp : Change Stamp) : Avoids F (setContent n content json stamp) := by
  refine (avoids_membersHash _).bind fun _ => (heedless_require _).bind fun _ =>
    avoids_tables.bind fun _ => ?_
  split
  · exact .throw (outside nofun)
  · exact (avoids_complete _).bind fun _ => avoids_tables.bind fun _ =>
      (heedless_remove _).bind fun _ => .pure _

theorem heedless_upsertDerived [Failure.OfBuild F] (parent : Node) (type : NodeType) (name : String)
    (json : Option Members) (content : Change String) :
    Avoids F (upsertDerived parent type name json content) :=
  (avoids_getOrCreate ..).bind fun _ => heedless_setContent ..

theorem heedless_link [Failure.OfBuild F] (source target : Node) (type : EdgeType) (name : String) :
    Avoids F (link source target type name) := by
  refine (heedless_findEdge? _).bind fun o => ?_
  cases o with
  | some e => exact .pure e
  | none =>
      exact (avoids_complete _).bind fun _ => avoids_tables.bind fun _ =>
        .bind (.lift fun _ _ => outside nofun) fun _ => (avoids_commit _).bind fun _ => .pure _

theorem heedless_deleteEdge [Failure.OfBuild F] (id : String) : Avoids F (deleteEdge id) :=
  avoids_tables.bind fun _ => (heedless_remove _).bind fun _ => .pure _

theorem heedless_deleteRecord [Failure.OfBuild F] (id : String) : Avoids F (deleteRecord id) :=
  avoids_tables.bind fun _ => (heedless_remove _).bind fun _ => .pure _

theorem heedless_deleteNode [Failure.OfBuild F] (id : String) : Avoids F (deleteNode id) :=
  avoids_tables.bind fun _ => (heedless_remove _).bind fun _ => .pure _

theorem heedless_unlink [Failure.OfBuild F] (source target : Node) (type : EdgeType) (name : String) :
    Avoids F (unlink source target type name) := by
  refine (heedless_findEdge? _).bind fun o => ?_
  cases o with
  | some e => exact (heedless_deleteEdge _).bind fun _ => .pure _
  | none => exact .pure _

theorem heedless_detach [Failure.OfBuild F] (n : Node) : Avoids F (detach n) :=
  (heedless_edgesFrom _ _).bind fun _ =>
    .bind (.forIn fun _ _ => .once (heedless_deleteEdge _)) fun _ =>
      (heedless_edgesTo _ _).bind fun _ =>
        .bind (.forIn fun _ _ => .once (heedless_deleteEdge _)) fun _ =>
          (heedless_records _ _).bind fun _ =>
            .bind (.forIn fun _ _ => .once (heedless_deleteRecord _)) fun _ => .pure _

theorem heedless_deleteFrom [Failure.OfBuild F] (fuel : Nat) : ∀ n, Avoids F (deleteFrom fuel n) := by
  induction fuel with
  | zero => exact fun _ => .throw (outside nofun)
  | succ fuel ih =>
      exact fun n => .transaction <| (heedless_detach n).bind fun _ =>
        (heedless_children _ _).bind fun _ => (Avoids.mapM ih _).bind fun _ =>
          (heedless_deleteNode _).bind fun _ => .pure _

theorem heedless_cascadeDelete [Failure.OfBuild F] (n : Node) (includingSelf : Bool) :
    Avoids F (cascadeDelete n includingSelf) :=
  heedless_depthBound.bind fun fuel => .ite (heedless_deleteFrom fuel n) <|
    .transaction <| (heedless_children _ _).bind fun _ =>
      (Avoids.mapM (heedless_deleteFrom fuel) _).bind fun _ => .pure _

theorem heedless_relativeParts [Failure.OfBuild F] (root : Node) (full : String) :
    Avoids F (relativeParts root full) := by
  refine .bind (.bind (heedless_path? _) fun o => ?_) fun _ => .lift fun _ _ => outside nofun
  cases o with
  | some p => exact .pure p
  | none => exact .throw (outside nofun)

theorem avoids_makePlace [Failure.Apart F] (kind : FileKind) :
    ∀ (parent : Node) (parts : List String), Avoids F (makePlace kind parent parts)
  | _, [] => .pure _
  | _, [_] => avoids_getOrCreate ..
  | _, _ :: name :: rest => (avoids_getOrCreate ..).bind fun d =>
      avoids_makePlace kind d (name :: rest)

theorem heedless_placeOf [Failure.OfBuild F] (root : Node) (full : String) (kind : FileKind) :
    Avoids F (placeOf root full kind) :=
  (heedless_relativeParts _ _).bind fun _ => avoids_makePlace ..

theorem heedless_findPlace [Failure.OfBuild F] (kind : FileKind) :
    ∀ (parent : Node) (parts : List String), Avoids F (findPlace kind parent parts)
  | _, [] => .pure _
  | _, [_] => avoids_child? _ _ _
  | _, _ :: name :: rest => (avoids_child? _ _ _).bind fun
      | some d => heedless_findPlace kind d (name :: rest)
      | none => .pure _

theorem heedless_findPlaceOf [Failure.OfBuild F] (root : Node) (full : String) (kind : FileKind) :
    Avoids F (findPlaceOf root full kind) :=
  (heedless_relativeParts _ _).bind fun _ => heedless_findPlace ..

end Graph

/-! ## The cache -/

namespace Cache

open Graph

theorem heedless_lookup [Failure.OfBuild F] (c : Cache) (n : Node) (tool prompt : String) :
    Avoids F (c.lookup n tool prompt) := by
  refine (heedless_findRecord? _).bind fun o => ?_
  cases o with
  | none => exact .pure none
  | some r => exact .ite (.pure _) ((avoids_notify _).bind fun _ => .pure _)

theorem heedless_store [Failure.OfBuild F] (c : Cache) (n : Node) (tool prompt output : String)
    (json : Option Members) : Avoids F (c.store n tool prompt output json) := by
  have hprune (keep : String) : Avoids F (c.prune n tool keep) :=
    (heedless_records _ _).bind fun _ =>
      .bind (.forIn fun _ _ => .once (heedless_deleteRecord _)) fun _ => .pure _
  have hupsert (r : GenerationRecord) : Avoids F (upsertRecord r) :=
    avoids_tables.bind fun _ => .bind (.lift fun _ _ => outside nofun) fun _ =>
      (avoids_commit _).bind fun _ => .pure _
  exact .transaction <| (avoids_complete _).bind fun _ => (hupsert _).bind fun _ =>
    (hprune _).bind fun _ => .pure _

end Cache

/-! ## Dependencies -/

namespace Manifest

open Graph

theorem heedless_textsAt [Failure.OfBuild F] (key : String) (n : Node) :
    Avoids F (Op.lift (fun e => e) (textsAt key n)) := by
  refine .lift fun e he => ?_
  unfold textsAt at he
  split at he
  · cases he
  · split at he <;> cases he
    exact outside nofun
  · cases he
    exact outside nofun

theorem heedless_versionOf [Failure.OfBuild F] (e : Edge) : Avoids F (versionOf e) := by
  refine (heedless_find? _).bind fun o => ?_
  cases o with
  | none => exact .pure none
  | some n =>
      refine .lift fun f hf => ?_
      unfold declaredVersion? at hf
      split at hf
      · cases hf
      · split at hf <;> cases hf
        exact outside nofun
      · cases hf
        exact outside nofun

theorem heedless_node [Failure.OfBuild F] (project : Node) :
    Avoids F (node project) := avoids_getOrCreate ..

theorem heedless_edges [Failure.OfBuild F] (manifest : Node) :
    Avoids F (edges manifest) := heedless_edgesTo _ _

/-- The versions that edges stand for are read. -/
theorem heedless_union [Failure.OfBuild F] (es : List Edge) (u : Dependencies) :
    Avoids F (es.foldlM (fun u e => return raise u e.name (← versionOf e)) u) :=
  .foldlM (fun _ _ => (heedless_versionOf _).bind fun _ => .pure _) _ _

theorem heedless_refreshName [Failure.OfBuild F] (manifest : Node) (m : Dependencies)
    (name : String) : Avoids F (refreshName manifest m name) := by
  have hhighest : Avoids F (highest manifest name) :=
    (heedless_edges _).bind fun _ => (heedless_union _ _).bind fun _ => .pure _
  exact hhighest.bind fun
    | some _ => .pure _
    | none => .pure _

theorem heedless_linkDelta [Failure.OfBuild F] (file manifest : Node) (d : DependencyDelta) :
    Avoids F (linkDelta file manifest d) := by
  unfold linkDelta
  split
  · exact (heedless_link ..).bind fun _ => .pure _
  · exact (heedless_unlink ..).bind fun _ => .pure _

theorem heedless_applyDeltas [Failure.OfBuild F] (project file : Node)
    (deltas : List DependencyDelta) : Avoids F (applyDeltas project file deltas) :=
  .transaction <| (heedless_node _).bind fun _ => (heedless_require _).bind fun _ =>
    (heedless_textsAt _ _).bind fun _ =>
      .bind (.forIn fun _ _ => .once (heedless_linkDelta ..)) fun _ =>
        (heedless_setContent ..).bind fun _ => (heedless_textsAt _ _).bind fun _ =>
          (Avoids.foldlM (fun _ _ => heedless_refreshName ..) _ _).bind fun _ =>
            heedless_setContent ..

theorem heedless_replaceDeclared [Failure.OfBuild F] (project file : Node) (declared : Dependencies) :
    Avoids F (replaceDeclared project file declared) :=
  (heedless_require _).bind fun _ => (heedless_textsAt _ _).bind fun _ =>
    .bind (.lift fun _ _ => outside nofun) fun _ => heedless_applyDeltas ..

theorem heedless_reconcile [Failure.OfBuild F] (project : Node) : Avoids F (reconcile project) := by
  have hdeclared : Avoids F (declared project) :=
    (heedless_node _).bind fun _ => (heedless_edges _).bind fun _ =>
      (heedless_union _ _).bind fun _ => .pure _
  have hput (b : Node) (union : Dependencies) :
      Avoids F (setJson b (withTexts "deps" b union)) := heedless_setContent ..
  refine (heedless_node _).bind fun b => hdeclared.bind fun union => .ite (.ite ?_ ?_) (.pure _)
  · exact (Avoids.throw (e := .illTyped) (outside nofun)).bind fun _ => (hput b union).bind fun _ => .pure _
  · exact (hput b union).bind fun _ => .pure _

end Manifest

/-! ## Results -/

theorem TechStack.heedless_apply [Failure.OfBuild F] (c : BuildContext) (file : Node) (r : TechStackResult) :
    Avoids F (TechStack.apply c file r) := by
  have hsummary (project : Node) : Avoids F (TechStack.summaryPath project) := by
    refine .bind ((Graph.heedless_path? _).bind fun o => ?_) fun _ => .pure _
    cases o with
    | some p => exact .pure _
    | none => exact .throw (outside nofun)
  exact (hsummary _).bind fun _ => (heedless_writeObject _ _).bind fun _ =>
    (Graph.heedless_upsertDerived ..).bind fun _ =>
      (Manifest.heedless_replaceDeclared ..).bind fun _ =>
        .bind (.forIn fun _ _ => .once (avoids_notify _)) fun _ => .pure _

theorem Stage.heedless_forget [Failure.OfBuild F] (c : BuildContext) (n : Node) :
    Avoids F (Stage.forget c n) :=
  (Graph.heedless_cascadeDelete _ _).bind fun _ =>
    (Manifest.heedless_reconcile _).bind fun _ => .pure _

theorem Lowering.heedless_applyEntry [Failure.OfBuild F] (c : BuildContext) (e : IntentEntry) :
    Avoids F (Lowering.applyEntry c e) := by
  refine (Graph.heedless_pathOf _).bind fun dir => ?_
  cases e.change with
  | delete =>
      refine (avoids_isFile _).bind fun _ => .ite (avoids_files.bind fun _ =>
        (avoids_setFiles _).bind fun _ => ?_) ?_
      all_goals
        refine (Graph.heedless_findPlaceOf ..).bind fun o => ?_
        cases o with
        | some n => exact Stage.heedless_forget ..
        | none => exact .pure _
  | set =>
      cases e.content with
      | none => exact .throw (outside nofun)
      | some text =>
          exact (heedless_writeIfChanged _ _).bind fun _ =>
            (Graph.heedless_placeOf ..).bind fun _ => .pure _

theorem Lowering.heedless_steps [Failure.OfBuild F] (c : BuildContext) (file : Node) (r : LoweringResult) :
    ∀ x ∈ Lowering.steps c file r, Avoids F x := by
  intro x hx
  rcases List.mem_append.mp hx with hx | hx
  · obtain ⟨e, -, rfl⟩ := List.mem_map.mp hx
    exact Lowering.heedless_applyEntry c e
  · rw [List.mem_singleton.mp hx]
    exact (Graph.heedless_upsertDerived ..).bind fun _ => .pure _

theorem Indexing.heedless_apply [Failure.OfBuild F] (file : Node) (r : IndexResult) :
    Avoids F (Indexing.apply file r) :=
  (Graph.heedless_upsertDerived ..).bind fun _ => .pure _

theorem Compilation.heedless_applySource [Failure.OfBuild F] (c : BuildContext) (file : Node)
    (relative s : String) : Avoids F (Compilation.applySource c file relative s) :=
  (Graph.heedless_pathOf _).bind fun _ => (heedless_writeIfChanged _ _).bind fun _ =>
    (Graph.heedless_placeOf ..).bind fun _ => (Graph.heedless_setContent ..).bind fun _ =>
      (Graph.heedless_link ..).bind fun _ => .pure _

theorem Compilation.heedless_steps [Failure.OfBuild F] (c : BuildContext) (file : Node)
    (relative text : String) (r : CompileResult) :
    ∀ x ∈ Compilation.steps c file relative text r, Avoids F x := by
  rw [Compilation.steps, List.forall_mem_append, List.forall_mem_cons, List.forall_mem_singleton]
  refine ⟨fun x hx => ?_, ?_, ?_⟩
  · obtain ⟨s, -, rfl⟩ := Option.map_eq_some_iff.mp (Option.mem_toList.mp hx)
    exact Compilation.heedless_applySource c file relative s
  · exact (Manifest.heedless_applyDeltas ..).bind fun _ => .pure _
  · exact (Graph.heedless_setContent ..).bind fun _ => (Graph.heedless_upsertDerived ..).bind fun _ =>
      .pure _

end IntentBuild
