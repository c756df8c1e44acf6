import IntentBuild.Proofs.Graph.Outcome
import IntentBuild.Proofs.Instance.Lifetime

/-!
# A graph at rest

A graph is *at rest* outside all transactions, when the file of the document holds the document of the
tables (`Workspace.AtRest`).  From then on the document can always be written, so an operation that leaves
its file alone leaves the graph at rest, whether it fails or not (`Workspace.AtRest.way`), and a graph that
is opened again has the rows that it had (`Workspace.AtRest.reopen`).

Before anything was put into a graph there is no file (`Workspace.Fresh`).  Nothing but a directory in its
place keeps it from being written, and within a transaction no directory is made (`Op.Inward`).
-/

namespace IntentBuild

open Op

/-! ## The file of the document -/

namespace Workspace

/-- A file stands in the place of the document. -/
def Filed (w : Workspace) : Prop := ∃ b, w.files.bytesAt? w.documentKey = some b

variable {w w' : Workspace}

theorem Filed.not_blocked (h : w.Filed) : ¬ w.Blocked := by
  obtain ⟨b, hb⟩ := h
  intro hdir
  rw [FileTree.bytesAt?, hdir] at hb
  cases hb

/-- What stands there can be written over. -/
theorem Filed.writable (h : w.Filed) (hr : w.Rooted) : w.Writable := hr.writable h.not_blocked

end Workspace

/-- A file that is left alone stays, and so does the document when it is written. -/
theorem Happens.filed {e : Event} {w w' : Workspace} (h : Happens e w w')
    (he : e.Quiet ∨ e.Clears w.files.workingDirectory w.documentKey) (hw : w.Filed) : w'.Filed := by
  have hkey := h.documentKey_eq
  unfold Workspace.Filed at hw ⊢
  rw [hkey]
  cases h with
  | makeDirs h =>
      rw [FileTree.makeDirs_eq_ok h, FileTree.bytesAt?_addDirs]
      exact hw
  | save h =>
      refine ⟨w.tables.document.toUTF8, ?_⟩
      rw [FileTree.bytesAt?_place h]
      exact if_pos rfl
  | write h =>
      have hne : w.documentKey ≠ w.files.key _ := fun hk => he.elim id fun hc => hc hk.symm
      rw [FileTree.bytesAt?_write h, if_neg hne]
      exact hw
  | remove h =>
      have hne : w.documentKey ≠ w.files.key _ := fun hk => he.elim id fun hc => hc hk.symm
      change ∃ b, (w.files.removeFile _).bytesAt? _ = some b
      rw [FileTree.bytesAt?_removeFile, if_neg hne]
      exact hw
  | _ => exact hw

theorem Reach.filed {w w' : Workspace}
    (h : Reach (Event.Clears w.files.workingDirectory w.documentKey) w w') (hw : w.Filed) :
    w'.Filed := by
  induction h with
  | refl => exact hw
  | step h he hs ih =>
      rw [← h.workingDirectory_eq, ← h.documentKey_eq] at he
      exact hs.filed he ih

/-! ## At rest -/

namespace Workspace

/-- The file of the document holds the document of the tables, and nothing is left to write. -/
structure Saved (w : Workspace) : Prop where
  /-- Nothing is left to write. -/
  unsaved : w.graph.unsaved = false
  /-- The file holds the document. -/
  bytes : w.files.bytesAt? w.documentKey = some w.tables.document.toUTF8

/-- No transaction is open, and the graph, which is in order, has been written. -/
structure AtRest (w : Workspace) : Prop extends w.Saved where
  /-- The graph is in order. -/
  sound : w.Sound
  /-- Every node has a name. -/
  named : w.tables.Named
  /-- The directory of the document is there. -/
  rooted : w.Rooted
  /-- No transaction is open. -/
  closed : w.graph.depth = 0

variable {w w' : Workspace}

theorem Saved.filed (h : w.Saved) : w.Filed := ⟨_, h.bytes⟩

theorem AtRest.writable (h : w.AtRest) : w.Writable := h.filed.writable h.rooted

theorem AtRest.kept (h : w.AtRest) : w.Kept where
  sound := h.sound
  named := h.named
  rooted := h.rooted
  inStep _ := .inl h.bytes
  written _ hu := absurd (h.unsaved.symm.trans hu) Bool.false_ne_true

/-- The file in the place of the document of a graph at rest reads as the document. -/
theorem AtRest.readText_document (h : w.AtRest) :
    (readText (documentPath w.graph)).run w = .ok (Text.unifyLineBreaks w.tables.document) w :=
  readText_run h.bytes (decode_toUTF8 _)

/-- Outside all transactions, what is kept is at rest where a file stands in the place of the document. -/
theorem Kept.atRest (h : w.Kept) (hf : w.Filed) (hd : w.graph.depth = 0) : w.AtRest := by
  have hu : w.graph.unsaved = false := by
    rw [← Bool.not_eq_true]
    exact fun hu => hf.not_blocked (h.written hd hu)
  refine { unsaved := hu, bytes := ?_, sound := h.sound, named := h.named, rooted := h.rooted, closed := hd }
  rcases h.inStep hu with hbytes | ⟨hnone, -⟩
  · exact hbytes
  · obtain ⟨b, hb⟩ := hf
    rw [hnone] at hb
    cases hb

/-- A whole operation that leaves the file of the document alone leaves a graph at rest at rest. -/
theorem AtRest.way (h : w.AtRest) (hw : Way (Event.Clears w.files.workingDirectory w.documentKey) w w') :
    w'.AtRest :=
  (h.kept.way hw).atRest (hw.reach.filed h.filed) (hw.depth.trans h.closed)

end Workspace

/-! ## What is written at once -/

namespace Op

variable {w w' : Workspace} {t : Tables} {u : Unit}

theorem saved_of_save (h : save.run w = .ok u w') : w'.Saved := by
  obtain ⟨t, t', hm, hp, rfl⟩ := save_eq_ok.mp h
  refine ⟨rfl, ?_⟩
  have hkey : Workspace.documentKey
      { w with files := t', graph := { w.graph with unsaved := false } } = t.key (documentPath w.graph) := by
    rw [Workspace.documentKey]
    exact FileTree.key_place hp _
  rw [hkey, FileTree.bytesAt?_place hp, if_pos rfl]
  rfl

theorem saved_of_commit (h : (commit t).run w = .ok u w') (hd : w.graph.depth = 0) : w'.Saved := by
  rw [commit_eq, if_pos hd] at h
  exact saved_of_save h

/-- Where the document can be written, changed tables are put in place. -/
theorem commit_run (hw : w.Writable) (t : Tables) : ∃ w', (commit t).run w = .ok ⟨⟩ w' := by
  rw [commit_eq]
  split
  · exact hw.congr rfl rfl
  · exact ⟨_, rfl⟩

end Op

namespace Graph

variable {w : Workspace} {n old : Node}

/-- Where the document can be written, a node is put in place of one with its key, and outside all
transactions the document has been written then. -/
theorem updateNode_run (ho : w.tables.node? n.id = some old) (hk : n.key = old.key) (hw : w.Writable) :
    ∃ n' w', (updateNode n).run w = .ok n' w' ∧ (w.graph.depth = 0 → w'.Saved) := by
  have htables : Op.tables.run w = .ok w.tables w := rfl
  generalize hd : (Draft.orNow none : Draft Stamp).run w.supply = d
  have hstamp : (complete (Draft.orNow none)).run w = .ok d.1 { w with supply := d.2 } := by
    rw [← hd]
    rfl
  have htables' : Op.tables.run { w with supply := d.2 } = .ok w.tables { w with supply := d.2 } := rfl
  have hwritable : Workspace.Writable { w with supply := d.2 } := hw.congr rfl rfl
  obtain ⟨w', hcommit⟩ := commit_run hwritable (w.tables.putNode { n with updated := d.1 })
  have hupdate : w.tables.updateNode { n with updated := d.1 } =
      .done (w.tables.putNode { n with updated := d.1 }) := Tables.updateNode_of_key_eq ho hk
  have hremove : (remove (w.tables.updateNode { n with updated := d.1 })).run { w with supply := d.2 } =
      .ok true w' := by
    rw [hupdate, remove, bind_ok hcommit]
    rfl
  refine ⟨{ n with updated := d.1 }, w', ?_, fun h0 => saved_of_commit hcommit h0⟩
  rw [updateNode, bind_ok htables, ho]
  dsimp only
  rw [bind_ok hstamp, bind_ok htables', bind_ok hremove]
  rfl

/-- Where the document can be written, the content of a stored node is changed. -/
theorem setContent_run {content : Change String} {json : Change Members} {stamp : Change Stamp}
    (hs : w.Sound) (ho : w.tables.node? n.id = some old) (hj : Json.ExactMembers (json.value?.getD []))
    (hw : w.Writable) : ∃ n' w', (setContent n content json stamp).run w = .ok n' w' ∧
      (w.graph.depth = 0 → w'.Saved) := by
  obtain ⟨hash, hh⟩ := membersHash_eq_ok.mpr hj
  have hr : Revised content json stamp old _ := revised_put hh old old.updated
  have hid : old.id = n.id := hs.wellFormed.nodes.owned ho
  rw [setContent, hh, bind_ok (lift_ok ..), bind_ok (require_run ho)]
  exact updateNode_run (by rw [← hid, ← hr.id] at ho; exact ho) hr.key hw

end Graph

/-! ## Opening again -/

/-- The document has a record as it is where it loses nothing of it. -/
theorem GenerationRecord.Lossless.written_eq {r : GenerationRecord} (h : r.Lossless) : r.written = r := by
  have hjson : r.json.map Json.finiteMembers = r.json := by
    cases hms : r.json with
    | none => rfl
    | some ms => exact congrArg some (Json.obj.inj (Json.finite_lossless (h.json ms hms)))
  rw [written, hjson]

/-- Tables of which the document loses nothing can be opened again. -/
theorem Tables.Lossless.durable {t : Tables} (h : t.Lossless) : t.Durable where
  nodes := h.nodes
  edges := h.edges
  records r hr := by
    rw [allRecords_written] at hr
    obtain ⟨r₀, hr₀, rfl⟩ := List.mem_map.mp hr
    rw [(h.records r₀ hr₀).written_eq]
    exact h.records r₀ hr₀

/-- Tables with the same rows in the same order have the same document. -/
theorem Tables.Agree.document_eq {t t' : Tables} (h : t.Agree t') : t'.document = t.document := by
  simp only [Tables.document, Tables.toJson, Tables.allNodes, Tables.allEdges, Tables.allRecords, h.nodes,
    h.edges, h.records]

namespace Workspace

variable {w : Workspace}

/-- A graph at rest that is opened again has the nodes that it had, and is at rest. -/
theorem AtRest.reopen (h : w.AtRest) (hs : w.Steady) (hp : w.tables.Durable) (i : String) :
    ∃ u : Tables, (openGraph w.graph.root i).run w =
        .ok ⟨⟩ { w with graph := { root := w.graph.root, instanceId := i, tables := u } } ∧
      w.tables.written.Agree u ∧
      Steady { w with graph := { root := w.graph.root, instanceId := i, tables := u } } ∧
      AtRest { w with graph := { root := w.graph.root, instanceId := i, tables := u } } := by
  have hwf := h.sound.wellFormed.written
  have hagree := Tables.agree_ofLists hwf
  have hbytes := h.bytes
  rw [← Tables.document_written] at hbytes
  have hdecode : decode w.tables.written.document.toUTF8 = .ok w.tables.written.document := by
    rw [decode_toUTF8, Tables.unifyLineBreaks_document hp]
  have hrun := openGraph_some (i := i) (FileTree.makeDirs_of_dirs h.rooted) hbytes hdecode
    (Tables.hasInk_document _) (Tables.readDocument_rows hwf hp h.named)
  have hsteady := hs.again (Supply.le_refl _) hp h.bytes hrun
  exact ⟨_, hrun, hagree, hsteady,
    { unsaved := rfl, bytes := hbytes.trans (congrArg _ (congrArg _ hagree.document_eq.symm)),
      sound := hsteady.sound, named := hsteady.named, rooted := h.rooted, closed := rfl }⟩

end Workspace

/-! ## Before the first row -/

namespace Workspace

/-- Nothing was put into the graph, and nothing stands in the place of its document. -/
structure Fresh (w : Workspace) : Prop where
  /-- The tables are empty. -/
  tables : w.tables = {}
  /-- Nothing is left to write. -/
  unsaved : w.graph.unsaved = false
  /-- No transaction is open. -/
  closed : w.graph.depth = 0
  /-- The directory of the document is there. -/
  rooted : w.Rooted
  /-- Nothing stands in the place of the document. -/
  absent : w.files.entryAt w.documentKey = none

variable {w : Workspace}

theorem Fresh.writable (h : w.Fresh) : w.Writable :=
  h.rooted.writable fun hdir => by
    rw [Blocked, h.absent] at hdir
    cases hdir

theorem Fresh.kept (h : w.Fresh) : w.Kept where
  sound := (steady_of_empty h.tables).sound
  named := (steady_of_empty h.tables).named
  rooted := h.rooted
  inStep _ := .inr ⟨by rw [FileTree.bytesAt?, h.absent], h.tables⟩
  written _ hu := absurd (h.unsaved.symm.trans hu) Bool.false_ne_true

/-- A graph into which nothing was put is as it was when it is opened again. -/
theorem Fresh.reopen (h : w.Fresh) (i : String) : (openGraph w.graph.root i).run w =
      .ok ⟨⟩ { w with graph := { root := w.graph.root, instanceId := i } } ∧
    Fresh { w with graph := { root := w.graph.root, instanceId := i } } := by
  refine ⟨openGraph_none (FileTree.makeDirs_of_dirs h.rooted) ?_, rfl, rfl, rfl, h.rooted, h.absent⟩
  change w.files.bytesAt? w.documentKey = none
  rw [FileTree.bytesAt?, h.absent]

/-- A graph that is opened where nothing stands in the place of its document is a fresh one. -/
theorem fresh_of_openGraph {v : Workspace} {root : Path} {i : String}
    (hv : v.files.entryAt (v.files.key (root.child "graph.json")) = none)
    (h : (openGraph root i).run v = .ok ⟨⟩ w) : w.Fresh := by
  have hfile : v.files.isFile (root.child "graph.json") = false := by
    rw [← Bool.not_eq_true, FileTree.isFile_iff]
    rintro ⟨b, hb⟩
    rw [FileTree.bytesAt?, hv] at hb
    cases hb
  have hkept := kept_openGraph hfile h
  obtain ⟨t, ht, -, rfl⟩ := openGraph_first hfile h
  refine ⟨rfl, rfl, rfl, hkept.rooted, ?_⟩
  have hkey : t.key (root.child "graph.json") = t.key root ++ ["graph.json"] :=
    documentKey_eq { v with files := t, graph := { root, instanceId := i } }
  change t.entryAt (t.key (root.child "graph.json")) = none
  rw [FileTree.key_makeDirs ht, FileTree.key_makeDirs ht] at hkey
  rw [FileTree.key_makeDirs ht, FileTree.makeDirs_eq_ok ht, FileTree.entryAt_addDirs, hv, Option.none_or,
    if_neg]
  rw [hkey]
  intro hprefix
  have hlength := hprefix.length_le
  rw [List.length_append, List.length_singleton] at hlength
  omega

end Workspace

/-! ## Between two operations -/

namespace Workspace

/-- Other files change, services of any instance take over, and identifiers are taken. -/
structure Later (w w' : Workspace) : Prop where
  /-- The graph is left alone, but for the instance that is served. -/
  graph : w'.graph = (w.serve w'.graph.instanceId).graph
  /-- Paths are seen from the same directory. -/
  workingDirectory : w'.files.workingDirectory = w.files.workingDirectory
  /-- The document and the directories above it are left alone. -/
  entries : ∀ k, k <+: w.documentKey → w'.files.entryAt k = w.files.entryAt k
  /-- Identifiers are not given back. -/
  supply : w.supply.Le w'.supply
  /-- The names of files are proper. -/
  proper : w'.Proper

namespace Later

variable {w w' : Workspace} (h : w.Later w')
include h

theorem tables_eq : w'.tables = w.tables := by
  rw [tables, h.graph]
  rfl

theorem root_eq : w'.graph.root = w.graph.root := by
  rw [h.graph]
  rfl

theorem depth_eq : w'.graph.depth = w.graph.depth := by
  rw [h.graph]
  rfl

theorem unsaved_eq : w'.graph.unsaved = w.graph.unsaved := by
  rw [h.graph]
  rfl

theorem documentKey_eq : w'.documentKey = w.documentKey := by
  rw [documentKey, documentKey, documentPath, documentPath, h.root_eq]
  exact FileTree.key_congr h.workingDirectory _

theorem rooted (hr : w.Rooted) : w'.Rooted := by
  intro k hk
  rw [h.root_eq, FileTree.key_congr h.workingDirectory] at hk
  refine (h.entries k (hk.trans ?_)).trans (hr k hk)
  exact w.documentKey_eq ▸ List.prefix_append ..

theorem sound (hs : w.Sound) : w'.Sound where
  wellFormed := h.tables_eq ▸ hs.wellFormed
  spent hu := (hs.spent (h.tables_eq ▸ hu)).mono h.supply
  exact := h.tables_eq ▸ hs.exact

theorem steady (hs : w.Steady) : w'.Steady where
  sound := h.sound hs.sound
  named := h.tables_eq ▸ hs.named
  digested := h.tables_eq ▸ hs.digested
  universal := h.tables_eq ▸ hs.universal

/-- A graph at rest is at rest still. -/
theorem atRest (hr : w.AtRest) : w'.AtRest where
  unsaved := h.unsaved_eq.trans hr.unsaved
  bytes := by
    rw [h.documentKey_eq, FileTree.bytesAt?_congr (h.entries _ (List.prefix_refl _)), h.tables_eq]
    exact hr.bytes
  sound := h.sound hr.sound
  named := h.tables_eq ▸ hr.named
  rooted := h.rooted hr.rooted
  closed := h.depth_eq.trans hr.closed

/-- There is nothing in a fresh graph still. -/
theorem fresh (hf : w.Fresh) : w'.Fresh where
  tables := h.tables_eq.trans hf.tables
  unsaved := h.unsaved_eq.trans hf.unsaved
  closed := h.depth_eq.trans hf.closed
  rooted := h.rooted hf.rooted
  absent := by
    rw [h.documentKey_eq]
    exact (h.entries _ (List.prefix_refl _)).trans hf.absent

end Later

end Workspace

/-! ## Within a transaction -/

namespace Op

variable {α β ε : Type}

/-- Within a transaction the operation leaves the files alone. -/
structure Inward (x : Op α) : Prop where
  /-- What the operation leaves. -/
  after : ∀ w : Workspace, w.graph.depth ≠ 0 →
    (x.after w).files = w.files ∧ (x.after w).graph.root = w.graph.root ∧
      (x.after w).graph.depth = w.graph.depth

namespace Inward

theorem bind {x : Op α} {f : α → Op β} (hx : Inward x) (hf : ∀ a, Inward (f a)) :
    Inward (x >>= f) where
  after w hd := by
    have h := hx.after w hd
    cases hrun : x.run w with
    | error e w' =>
        rw [after_bind_error hrun]
        rwa [Op.after, hrun] at h
    | ok a w' =>
        rw [after_bind_ok hrun]
        rw [Op.after, hrun] at h
        obtain ⟨hfiles, hroot, hdepth⟩ := h
        obtain ⟨hfiles', hroot', hdepth'⟩ := (hf a).after w' (hdepth ▸ hd)
        exact ⟨hfiles'.trans hfiles, hroot'.trans hroot, hdepth'.trans hdepth⟩

theorem of_reader {x : Op α} (hx : Reader x) : Inward x where
  after w _ := by
    rcases hx.out w with ⟨a, h⟩ | ⟨e, h⟩ <;> (rw [Op.after, h]; exact ⟨rfl, rfl, rfl⟩)

theorem pure (a : α) : Inward (Pure.pure a) := of_reader (.pure a)

theorem throw (e : Failure) : Inward (MonadExcept.throw e : Op α) := of_reader (.throw e)

theorem ite {c : Prop} [Decidable c] {x y : Op α} (hx : Inward x) (hy : Inward y) :
    Inward (if c then x else y) := by
  split
  · exact hx
  · exact hy

theorem complete (d : Draft α) : Inward (Op.complete d) := ⟨fun _ _ => ⟨rfl, rfl, rfl⟩⟩

theorem commit (t : Tables) : Inward (Op.commit t) where
  after w hd := by
    rw [Op.after, commit_eq, if_neg hd]
    exact ⟨rfl, rfl, rfl⟩

theorem transaction {x : Op α} (hx : Inward x) : Inward (Op.transaction x) where
  after w hd := by
    obtain ⟨hfiles, hroot, hdepth⟩ := hx.after (w.atDepth (w.graph.depth + 1)) (Nat.succ_ne_zero _)
    rw [after_transaction]
    have hdepth' : (x.after (w.atDepth (w.graph.depth + 1))).graph.depth - 1 = w.graph.depth := by
      rw [hdepth]
      rfl
    rw [Op.after, endTransaction_eq, hdepth', if_neg fun h => hd h.1]
    exact ⟨hfiles, hroot, rfl⟩

end Inward

end Op

namespace Graph

/-- A node is found or made within a transaction. -/
theorem inward_getOrCreate (parent : Option Node) (type : NodeType) (name : String)
    (json : Option Members) : Inward (getOrCreate parent type name json) := by
  refine .transaction (.bind (.of_reader (reader_child? ..)) fun o => ?_)
  cases o with
  | some n => exact .pure n
  | none =>
      refine .bind (.of_reader (.lift ..)) fun _ => .bind (.of_reader (.lift ..)) fun _ =>
        .bind (.of_reader reader_instanceId) fun _ => .bind (.complete _) fun n => ?_
      exact .bind (.of_reader reader_tables) fun _ => .bind (.of_reader (.lift ..)) fun t =>
        .bind (.commit t) fun _ => .pure n

/-- Two nodes are linked within a transaction. -/
theorem inward_link (source target : Node) (type : EdgeType) (name : String) :
    Inward (link source target type name) := by
  refine .bind (.of_reader (reader_findEdge? _)) fun o => ?_
  cases o with
  | some e => exact .pure e
  | none =>
      refine .bind (.complete _) fun e => ?_
      exact .bind (.of_reader reader_tables) fun _ => .bind (.of_reader (.lift ..)) fun t =>
        .bind (.commit t) fun _ => .pure e

end Graph

end IntentBuild
