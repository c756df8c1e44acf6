import IntentBuild.Proofs.Instance.Builds
import IntentBuild.Proofs.Operation.Persistence

/-!
# The lifetime of a graph

A graph is opened in a directory, is used by the services of one instance or several, and may be
opened again later.  `Workspace.Lived` has the workspaces that are reached in this way, through what the
services are asked for, in any order and whether it fails or not, with transactions that begin and end
around it, and with files that are changed from outside.  Where a graph is opened again, its document
is one that the store has written, now or earlier: a build whose source directory holds the document may
write another one, and nothing would follow for what is read from that.

Since the first opening the graph has been sound, every node has had its digests, and every record bears
a universal time (`Workspace.Lived.steady`).
-/

namespace IntentBuild

open Op

namespace Workspace

/-! ## Opening again -/

/-- The workspace as a service of an instance has it. -/
def serve (w : Workspace) (i : String) : Workspace :=
  { w with graph := { w.graph with instanceId := i } }

theorem Sound.serve {w : Workspace} (h : w.Sound) (i : String) : (w.serve i).Sound :=
  ⟨h.wellFormed, h.spent, h.exact⟩

/-- The file of the graph in a directory holds the document of the tables. -/
def HoldsDocument (w : Workspace) (root : Path) (t : Tables) : Prop :=
  w.files.bytesAt? (w.files.key (root.child "graph.json")) = some t.document.toUTF8

variable {v w w' : Workspace} {root : Path} {i : String}

/-- A graph that is opened from the document of some tables has their rows. -/
theorem openGraph_again {t : Tables} (hwf : t.WellFormed) (hn : t.Named) (hp : t.Durable)
    (hu : w.HoldsDocument root t) (h : (openGraph root i).run w = .ok ⟨⟩ w') :
    ∃ f, ∃ u : Tables, w' = { w with files := f, graph := { root, instanceId := i, tables := u } } ∧
      u.WellFormed ∧ t.written.Agree u := by
  obtain ⟨_, w₁, hdirs, -⟩ := bind_eq_ok.mp h
  obtain ⟨f, hf, -⟩ := makeDirs_eq_ok hdirs
  have hbytes : f.bytesAt? (f.key (root.child "graph.json")) = some t.written.document.toUTF8 := by
    rw [FileTree.key_makeDirs hf, FileTree.makeDirs_eq_ok hf, FileTree.bytesAt?_addDirs,
      Tables.document_written]
    exact hu
  have hwritten := hwf.written
  have hdecode : decode t.written.document.toUTF8 = .ok t.written.document := by
    rw [decode_toUTF8, Tables.unifyLineBreaks_document hp]
  rw [openGraph_some hf hbytes hdecode (Tables.hasInk_document _)
    (Tables.readDocument_rows hwritten hp hn)] at h
  cases h
  exact ⟨f, _, rfl, Tables.wellFormed_ofLists hwritten, Tables.agree_ofLists hwritten⟩

end Workspace

/-- All records bear universal times. -/
def Tables.Universal (t : Tables) : Prop :=
  ∀ {j r}, Assoc.get? j t.records = some r → r.created.offset.isSome

/-! ## What is asked for -/

/-- A request or a verification, whose nodes are none of the others. -/
inductive Asked (others : String → Bool) : Op Unit → Prop
  | request (r : Request) (h : r.Asks others) : Asked others r.op
  | verify (project : Node) (h : project.Own others) : Asked others (DepsFile.verify project)

theorem Asked.within {i : String} {others : String → Bool} {x : Op Unit} (h : Asked others x) :
    Safe (.within i others) x := by
  cases h with
  | request r h => exact r.within h
  | verify project h => exact DepsFile.within_verify h

namespace Workspace

/-- The workspaces that are reached from where there is no document, when the services ask for what they
may.  A graph is opened again from a document of tables that some graph had before. -/
inductive Lived (may : Workspace → Op Unit → Prop) : Workspace → Prop
  | opened {v w : Workspace} {root : Path} {i : String}
      (hv : v.files.isFile (root.child "graph.json") = false)
      (h : (openGraph root i).run v = .ok ⟨⟩ w) : Lived may w
  | asked {w : Workspace} (h : Lived may w) (i : String) {x : Op Unit} (hx : may (w.serve i) x) :
      Lived may (x.after (w.serve i))
  | began {w : Workspace} (h : Lived may w) : Lived may (beginTransaction.after w)
  | ended {w : Workspace} (h : Lived may w) (hd : w.graph.depth ≠ 0) :
      Lived may (endTransaction.after w)
  | outside {w : Workspace} (h : Lived may w) (t : FileTree) : Lived may { w with files := t }
  | reopened {v w w' : Workspace} (hv : Lived may v) (h : Lived may w) (hs : v.supply.Le w.supply)
      {root : Path} {i : String} (hu : w.HoldsDocument root v.tables) (hp : v.tables.Durable)
      (ho : (openGraph root i).run w = .ok ⟨⟩ w') : Lived may w'

/-- The services of the instance that the graph has. -/
theorem Lived.asked_self {may : Workspace → Op Unit → Prop} {w : Workspace} (h : Lived may w)
    {x : Op Unit} (hx : may w x) : Lived may (x.after w) :=
  h.asked w.graph.instanceId hx

theorem lived_fresh {may : Workspace → Op Unit → Prop} : Lived may fresh :=
  .opened (isFile_blank _) openGraph_fresh

/-- What holds of a graph from its first opening on. -/
structure Steady (w : Workspace) : Prop where
  /-- The graph is in order. -/
  sound : w.Sound
  /-- Every node has a name. -/
  named : w.tables.Named
  /-- Every node has its digests. -/
  digested : ∀ {j n}, w.tables.node? j = some n → n.Digested
  /-- Every record bears a universal time. -/
  universal : w.tables.Universal

variable {w w' : Workspace} {i : String}

/-- A workspace with no rows is steady. -/
theorem steady_of_empty (h : w.tables = {}) : w.Steady := by
  have hempty {α : Type} {j : String} {a : α} (hj : Assoc.get? j [] = some a) : False := by cases hj
  refine ⟨⟨h ▸ Tables.wellFormed_empty, fun hu => ?_, fun hn => ?_⟩, fun hn => ?_, fun hn => ?_,
    fun hr => ?_⟩
  · rw [h] at hu
    rcases hu with hu | hu | hu <;> cases hu
  all_goals rw [h] at *
  · exact (hempty hn).elim
  · exact (hempty hn).elim
  · exact (hempty hn).elim
  · exact (hempty hr).elim

/-- Only the tables and the supply count. -/
theorem Steady.congr (h : w.Steady) (ht : w'.tables = w.tables) (hs : w'.supply = w.supply) :
    w'.Steady where
  sound := ⟨ht ▸ h.sound.wellFormed, fun hu => hs ▸ h.sound.spent (ht ▸ hu), ht ▸ h.sound.exact⟩
  named := ht ▸ h.named
  digested := ht ▸ h.digested
  universal := ht ▸ h.universal

end Workspace

/-- A change within an instance keeps the digests in step and the times universal. -/
theorem Happens.steady {e : Event} {w w' : Workspace} {i : String} {others : String → Bool}
    (h : Happens e w w') (he : e.Quiet ∨ e.Within i others) (hw : w.Steady) : w'.Steady := by
  refine ⟨h.sound hw.sound, h.named hw.named, ?_, ?_⟩
  · intro j n hn
    cases h with
    | @node _ m t s h _ _ _ =>
        obtain ⟨rfl, -⟩ := Tables.insertNode_eq_ok h
        change Assoc.get? j (Assoc.set m.id m w.tables.nodes) = some n at hn
        rw [Assoc.get?_set] at hn
        split at hn
        · exact Option.some.inj hn ▸ (he.resolve_left id).2.2
        · exact hw.digested hn
    | @content _ old new ho _ _ =>
        change (w.tables.putNode new).node? j = some n at hn
        rw [Tables.node?_putNode] at hn
        split at hn
        · exact Option.some.inj hn ▸ (he.resolve_left id).2 (hw.digested ho)
        · exact hw.digested hn
    | @dropNode _ m _ _ =>
        change (w.tables.dropNode m).node? j = some n at hn
        rw [Tables.node?_dropNode] at hn
        split at hn
        · cases hn
        · exact hw.digested hn
    | edge h => obtain ⟨rfl, -⟩ := Tables.insertEdge_eq_ok h; exact hw.digested hn
    | _ => exact hw.digested hn
  · intro j r hr
    cases h with
    | node h => obtain ⟨rfl, -⟩ := Tables.insertNode_eq_ok h; exact hw.universal hr
    | edge h => obtain ⟨rfl, -⟩ := Tables.insertEdge_eq_ok h; exact hw.universal hr
    | @record _ q s _ _ =>
        change Assoc.get? j (Assoc.set _ _ w.tables.records) = some r at hr
        rw [Assoc.get?_set] at hr
        split at hr
        · exact Option.some.inj hr ▸ (he.resolve_left id).2
        · exact hw.universal hr
    | @dropRecord _ q _ =>
        change Assoc.get? j (Assoc.erase _ w.tables.records) = some r at hr
        rw [Assoc.get?_erase] at hr
        split at hr
        · cases hr
        · exact hw.universal hr
    | _ => exact hw.universal hr

theorem Reach.steady {w w' : Workspace} {i : String} {others : String → Bool}
    (h : Reach (Event.Within i others) w w') (hw : w.Steady) : w'.Steady := by
  induction h with
  | refl => exact hw
  | step _ he hs ih => exact hs.steady he ih

namespace Workspace

variable {v w w' : Workspace} {root : Path} {i : String}

/-- Where nobody is kept out, every graph is fenced. -/
theorem fenced_none (w : Workspace) : w.Fenced w.graph.instanceId fun _ => false where
  instanceId := rfl
  parents _ _ := rfl
  roots _ _ _ := rfl
  ends _ := rfl
  spent h := by cases h

/-- A graph that is opened from the document of an earlier one is steady as that was. -/
theorem Steady.again (h : v.Steady) (hs : v.supply.Le w.supply) (hp : v.tables.Durable)
    (hu : w.HoldsDocument root v.tables) (ho : (openGraph root i).run w = .ok ⟨⟩ w') :
    w'.Steady := by
  obtain ⟨f, u, rfl, hwf, hagree⟩ := openGraph_again h.sound.wellFormed h.named hp hu ho
  have hnode (j : String) : u.node? j = v.tables.node? j := by
    rw [Tables.node?, hagree.nodes]
    rfl
  have hrecord (j : String) : Assoc.get? j u.records =
      (Assoc.get? j v.tables.records).map GenerationRecord.written := by
    rw [hagree.records]
    exact Assoc.get?_mapValues ..
  have huses {id : String} (hid : u.Uses id) : v.tables.Uses id := by
    rw [Tables.Uses, hagree.nodes, hagree.edges, hagree.records] at hid
    simp only [Tables.written, Assoc.keys_mapValues] at hid
    exact hid
  refine ⟨⟨hwf, fun hid => (h.sound.spent (huses hid)).mono hs, fun hn => h.sound.exact (hnode _ ▸ hn)⟩,
    fun hn => h.named (hnode _ ▸ hn), fun hn => h.digested (hnode _ ▸ hn), fun {j r} hr => ?_⟩
  have hr : Assoc.get? j u.records = some r := hr
  rw [hrecord] at hr
  obtain ⟨q, hq, rfl⟩ := Option.map_eq_some_iff.mp hr
  have huniversal := h.universal hq
  exact huniversal

/-- The graph is steady all its life. -/
theorem Lived.steady {may : Workspace → Op Unit → Prop}
    (hmay : ∀ {w x}, may w x → Safe (.within w.graph.instanceId fun _ => false) x)
    (h : Lived may w) : w.Steady := by
  induction h with
  | opened hv h =>
      obtain ⟨t, -, -, rfl⟩ := openGraph_first hv h
      exact steady_of_empty rfl
  | asked _ i hx ih =>
      have hserve : (serve _ i).Steady := ih.congr rfl rfl
      exact (((hmay hx).runs _ (fenced_none _)).after hserve.sound).steady hserve
  | began _ ih => exact ih.congr rfl rfl
  | ended _ _ ih =>
      exact (reach_endTransaction (A := Event.Within "" fun _ => false) ih.sound).steady ih
  | outside _ t ih => exact ih.congr rfl rfl
  | reopened _ _ hs hu hp ho ih _ => exact ih.again hs hp hu ho

/-- What the services of any instance may ask for. -/
def Anything (_ : Workspace) (x : Op Unit) : Prop := Asked (fun _ => false) x

theorem Lived.steady_of_anything (h : Lived Anything w) : w.Steady := h.steady fun hx => hx.within

theorem lived_settled : Lived Anything settled :=
  lived_fresh.asked_self (.request (.setup "demo" (.ofText "/work/demo")) trivial)

/-- The first node of a graph passes a test. -/
def withFirst (w : Workspace) (f : Node → Bool) : Bool :=
  match w.tables.allNodes with
  | [] => false
  | n :: _ => f n

theorem withFirst_eq_true {f : Node → Bool} (hw : w.Sound) (h : w.withFirst f = true) :
    ∃ n, n.id ∈ Assoc.keys w.tables.nodes ∧ f n = true := by
  unfold withFirst at h
  split at h
  · cases h
  · rename_i n _ hnodes
    refine ⟨n, Assoc.mem_keys_of_get? ((Tables.mem_allNodes hw.wellFormed).mp ?_), h⟩
    rw [hnodes]
    exact .head _

end Workspace

end IntentBuild
