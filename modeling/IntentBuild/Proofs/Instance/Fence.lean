import IntentBuild.Proofs.Build.Stages

/-!
# Staying within an instance

Several instances may keep their nodes in one graph.  A set of identifiers, the *others*, holds what
an operation is to leave alone.  A graph is *fenced* when no parent and no edge leads across the border
of this set, and no root of the instance lies in it (`Workspace.Fenced`).

An operation stays within the instance when all that it changes lies outside the set
(`Regime.within`).  This asks for nodes that lie outside, and gives such nodes: a child of a node has
the side of its parent, and so has the other end of an edge.  With an empty set nothing is asked for,
so what every change of the regime makes sure of besides, that digests are in step and that records
bear universal times, holds of all operations.
-/

namespace IntentBuild

open Op

/-! ## The fence -/

/-- The node is none of the others. -/
def Node.Own (others : String → Bool) (n : Node) : Prop := others n.id = false

/-- The change stays within an instance and leaves the others alone.  A new node has its digests, a
change keeps them in step, and a record bears a universal time. -/
def Event.Within (i : String) (others : String → Bool) : Event → Prop
  | .node n => n.instanceId = i ∧ (∀ p, n.parent = some p → others p = false) ∧ n.Digested
  | .content old new => old.Own others ∧ (old.Digested → new.Digested)
  | .dropNode n => n.Own others
  | .edge e => others e.source = false ∧ others e.target = false
  | .dropEdge e => others e.source = false ∨ others e.target = false
  | .record r => others r.nodeId = false ∧ r.created.offset.isSome
  | .dropRecord r => others r.nodeId = false
  | _ => True

namespace Workspace

/-- Neither a parent nor an edge leads from the others to the nodes of the instance or back. -/
structure Fenced (i : String) (others : String → Bool) (w : Workspace) : Prop where
  /-- New nodes belong to the instance. -/
  instanceId : w.graph.instanceId = i
  /-- A child has the side of its parent. -/
  parents : ∀ {j n p}, w.tables.node? j = some n → n.parent = some p → others p = others j
  /-- The roots of the instance are none of the others. -/
  roots : ∀ {j n}, w.tables.node? j = some n → n.parent = none → n.instanceId = i →
    others j = false
  /-- Both ends of an edge have one side. -/
  ends : ∀ {j e}, Assoc.get? j w.tables.edges = some e → others e.source = others e.target
  /-- The others were there before. -/
  spent : ∀ {j}, others j = true → w.supply.Spent j

end Workspace

variable {i : String} {others : String → Bool} {w w' : Workspace}

/-- A change within the instance keeps the fence. -/
theorem Happens.fenced {e : Event} (h : Happens e w w') (he : e.Quiet ∨ e.Within i others)
    (hw : w.Fenced i others) : w'.Fenced i others := by
  have hspent : ∀ {j}, others j = true → w'.supply.Spent j :=
    fun hj => (hw.spent hj).mono h.supply_le
  have hid : w'.graph.instanceId = i := h.instanceId_eq.trans hw.instanceId
  cases h with
  | notice | supply | calls | depth | makeDirs | save | write | remove | record | dropRecord =>
      exact ⟨hid, hw.parents, hw.roots, hw.ends, hspent⟩
  | @node _ n t s h hs hj hn =>
      obtain ⟨hi, hp, -⟩ := he.resolve_left id
      have hfresh : others n.id = false := by
        rw [← Bool.not_eq_true]
        exact fun ho => hs.fresh (hw.spent ho)
      obtain ⟨rfl, -⟩ := Tables.insertNode_eq_ok h
      have cases {j : String} {m : Node} (hm : (w.tables.setNode n).node? j = some m) :
          (j = n.id ∧ m = n) ∨ w.tables.node? j = some m := by
        rw [Tables.node?, Tables.setNode, Assoc.get?_set] at hm
        split at hm
        · exact .inl ⟨‹_›, (Option.some.inj hm).symm⟩
        · exact .inr hm
      refine ⟨hid, fun {j m p} hm hmp => ?_, fun {j m} hm hmp hmi => ?_, hw.ends, hspent⟩
      · rcases cases hm with ⟨rfl, rfl⟩ | hm
        · rw [hp p hmp, hfresh]
        · exact hw.parents hm hmp
      · rcases cases hm with ⟨rfl, rfl⟩ | hm
        · exact hfresh
        · exact hw.roots hm hmp hmi
  | @content _ old new h hk hj =>
      have back {j : String} {m : Node} (hm : (w.tables.putNode new).node? j = some m) :
          ∃ m', w.tables.node? j = some m' ∧ m.key = m'.key := by
        rw [Tables.node?_putNode] at hm
        split at hm
        · rename_i hid
          cases hm
          exact ⟨old, hid ▸ h, hk⟩
        · exact ⟨m, hm, rfl⟩
      refine ⟨hid, fun {j m p} hm hmp => ?_, fun {j m} hm hmp hmi => ?_, hw.ends, hspent⟩
      · obtain ⟨m', hm', hkey⟩ := back hm
        have hparent : m.parent = m'.parent := congrArg NodeKey.parent hkey
        exact hw.parents hm' (hparent ▸ hmp)
      · obtain ⟨m', hm', hkey⟩ := back hm
        have hparent : m.parent = m'.parent := congrArg NodeKey.parent hkey
        have hinstance : m.instanceId = m'.instanceId := congrArg NodeKey.instanceId hkey
        exact hw.roots hm' (hparent ▸ hmp) (hinstance ▸ hmi)
  | @dropNode _ n h hu =>
      have back {j : String} {m : Node} (hm : (w.tables.dropNode n).node? j = some m) :
          w.tables.node? j = some m := by
        rw [Tables.node?_dropNode] at hm
        split at hm
        · cases hm
        · exact hm
      exact ⟨hid, fun hm => hw.parents (back hm), fun hm => hw.roots (back hm), hw.ends, hspent⟩
  | @edge _ e t s h hs =>
      obtain ⟨h1, h2⟩ := he.resolve_left id
      obtain ⟨rfl, -⟩ := Tables.insertEdge_eq_ok h
      refine ⟨hid, hw.parents, hw.roots, fun {j e'} he' => ?_, hspent⟩
      change Assoc.get? j (Assoc.set e.id e w.tables.edges) = some e' at he'
      rw [Assoc.get?_set] at he'
      split at he'
      · cases he'
        rw [h1, h2]
      · exact hw.ends he'
  | @dropEdge _ e h =>
      refine ⟨hid, hw.parents, hw.roots, fun {j e'} he' => ?_, hspent⟩
      change Assoc.get? j (Assoc.erase e.id w.tables.edges) = some e' at he'
      rw [Assoc.get?_erase] at he'
      split at he'
      · cases he'
      · exact hw.ends he'

theorem Reach.fenced (h : Reach (Event.Within i others) w w') (hw : w.Fenced i others) :
    w'.Fenced i others := by
  induction h with
  | refl => exact hw
  | step _ he hs ih => exact hs.fenced he ih

/-- The changes within an instance, in a fenced graph. -/
def Regime.within (i : String) (others : String → Bool) : Regime :=
  ⟨Event.Within i others, Workspace.Fenced i others, fun _ hr hw => hr.fenced hw⟩

/-- A node with an address below one of its own, or at the root, is its own. -/
theorem Workspace.Fenced.own_of_key (h : w.Fenced i others) {n : Node} {parent : Option Node}
    {type : NodeType} {name : String} (hn : w.tables.node? n.id = some n)
    (hk : n.key = ⟨parent.map Node.id, w.graph.instanceId, type, name⟩)
    (hp : ∀ p, parent = some p → p.Own others) : n.Own others := by
  have hparent : n.parent = parent.map Node.id := congrArg NodeKey.parent hk
  have hinstance : n.instanceId = w.graph.instanceId := congrArg NodeKey.instanceId hk
  cases parent with
  | none => exact h.roots hn hparent (hinstance.trans h.instanceId)
  | some p => exact (h.parents hn hparent).symm.trans (hp p rfl)

/-! ## What operations give -/

namespace Op

variable {α β : Type} {R : Regime}

/-- The operation makes only changes of a class, and what it gives satisfies a condition. -/
structure Gives (R : Regime) (x : Op α) (Q : α → Prop) : Prop where
  /-- What the operation does from a workspace. -/
  runs : ∀ w, R.holds w → Runs R.admits w x fun a _ => Q a

namespace Gives

variable {x : Op α} {f : α → Op β} {Q : α → Prop} {S : β → Prop}

theorem safe (hx : Gives R x Q) : Safe R x := .of_runs hx.runs

theorem pure {a : α} (h : Q a) : Gives R (Pure.pure a) Q := ⟨fun _ _ => .pure h⟩

theorem throw (e : Failure) : Gives R (MonadExcept.throw e) Q := ⟨fun _ _ => .throw e⟩

theorem bind (hx : Gives R x Q) (hf : ∀ a, Q a → Gives R (f a) S) : Gives R (x >>= f) S :=
  ⟨fun w hI hw => ((hx.runs w hI).bind fun a w' _ hr hq =>
    (hf a hq).runs w' (R.lasts hw hr hI)) hw⟩

/-- A safe operation on what another one gives. -/
theorem andThen (hx : Gives R x Q) (hf : ∀ a, Q a → Safe R (f a)) : Safe R (x >>= f) :=
  ⟨fun w hI hw => ((hx.runs w hI).bind fun a w' _ hr hq =>
    (hf a hq).runs w' (R.lasts hw hr hI)) hw⟩

/-- An operation after a safe one. -/
theorem after (hx : Safe R x) (hf : ∀ a, Gives R (f a) S) : Gives R (x >>= f) S :=
  ⟨fun w hI hw => ((hx.runs w hI).bind fun a w' _ hr _ =>
    (hf a).runs w' (R.lasts hw hr hI)) hw⟩

theorem of_reader (hx : Reader x) (h : ∀ w a, w.Sound → R.holds w → x.run w = .ok a w → Q a) :
    Gives R x Q :=
  ⟨fun w hI hw => Runs.of_reader hx (fun a ha => h w a hw hI ha) hw⟩

theorem ite {c : Prop} [Decidable c] {y : Op α} (hx : Gives R x Q) (hy : Gives R y Q) :
    Gives R (if c then x else y) Q := by
  split
  · exact hx
  · exact hy

theorem transaction (hx : Gives R x Q) : Gives R (Op.transaction x) Q :=
  ⟨fun _ hI hw => Runs.transaction (fun _ h => h) (fun w' _ _ hr =>
    hx.runs w' (R.lasts hw hr.of_quiet hI)) hw⟩

theorem mapM {l : List β} {g : β → Op α} (h : ∀ b ∈ l, Gives R (g b) Q) :
    Gives R (l.mapM g) fun as => ∀ a ∈ as, Q a := by
  refine ⟨fun w hI hw => ?_⟩
  refine ((Runs.mapM (Q := fun _ a _ => Q a) (fun b hb w' _ hr =>
    (h b hb).runs w' (R.lasts hw hr hI)) fun _ _ _ _ _ _ h => h).weaken fun as _ _ has a ha => ?_) hw
  obtain ⟨_, -, hq⟩ := has a ha
  exact hq

end Gives

end Op

/-! ## Nodes and edges -/

namespace Graph

theorem own_getOrCreate {parent : Option Node} (hp : ∀ p, parent = some p → p.Own others)
    (type : NodeType) (name : String) (json : Option Members) :
    Gives (.within i others) (getOrCreate parent type name json) (Node.Own others) := by
  refine ⟨fun w hI hw => ?_⟩
  have hget : Runs (Event.Within i others) w (getOrCreate parent type name json) _ :=
    runs_getOrCreate fun n hk _ hd => by
      have hparent : n.parent = parent.map Node.id := congrArg NodeKey.parent hk
      refine ⟨(congrArg NodeKey.instanceId hk).trans hI.instanceId, fun p h => ?_, hd⟩
      rw [hparent] at h
      obtain ⟨q, hq, rfl⟩ := Option.map_eq_some_iff.mp h
      exact hp q hq
  refine (hget.weaken fun n w' hr hf => ?_) hw
  obtain ⟨hn, hk⟩ := hf.node? hw.wellFormed
  rw [← hr.instanceId_eq] at hk
  exact (hr.fenced hI).own_of_key hn hk hp

/-- A child of a node of its own is its own. -/
theorem own_child? {parent : Option Node} (hp : ∀ p, parent = some p → p.Own others)
    (type : NodeType) (name : String) :
    Gives (.within i others) (child? parent type name) fun o => ∀ n, o = some n → n.Own others := by
  refine .of_reader (reader_child? ..) fun w o hw hI h n hn => ?_
  change EStateM.Result.ok (w.tables.findNode? _) w = .ok o w at h
  injection h with h
  subst hn
  obtain ⟨hn, hk⟩ := (Tables.findNode?_eq_some hw.wellFormed).mp h
  exact hI.own_of_key hn hk hp

theorem own_children {parent : Node} (hp : parent.Own others) (type : Option NodeType) :
    Gives (.within i others) (children parent type) fun l => ∀ n ∈ l, n.Own others := by
  refine .of_reader (reader_children ..) fun w l hw hI h n hn => ?_
  change EStateM.Result.ok (w.tables.listNodes _ _ _) w = .ok l w at h
  injection h with h
  subst h
  obtain ⟨hn, hparent, -⟩ := mem_listNodes hw.wellFormed hn
  exact (hI.parents hn hparent).symm.trans hp

theorem own_require {id : String} (hn : others id = false) :
    Gives (.within i others) (require id) (Node.Own others) := by
  refine .of_reader (reader_require _) fun w n hw _ h => ?_
  rw [Node.Own, hw.wellFormed.nodes.owned (require_eq_ok h), hn]

theorem own_setContent {n : Node} (hn : n.Own others) (content : Change String)
    (json : Change Members) (stamp : Change Stamp) :
    Gives (.within i others) (setContent n content json stamp) (Node.Own others) := by
  refine ⟨fun w _ hw => ?_⟩
  have hset : Runs (Event.Within i others) w (setContent n content json stamp) _ :=
    runs_setContent fun old new ho hr => by
      have hid : old.id = n.id := hw.wellFormed.nodes.owned ho
      exact ⟨(congrArg others hid).trans hn, hr.digested⟩
  refine (hset.weaken fun n' w' _ h => ?_) hw
  obtain ⟨old, ho, hr, -⟩ := h
  rw [Node.Own, hr.id, hw.wellFormed.nodes.owned ho, hn]

theorem own_setJson {n : Node} (hn : n.Own others) (ms : Members) :
    Gives (.within i others) (setJson n ms) (Node.Own others) :=
  own_setContent hn ..

theorem own_upsertDerived {parent : Node} (hp : parent.Own others) (type : NodeType)
    (name : String) (json : Option Members) (content : Change String) :
    Gives (.within i others) (upsertDerived parent type name json content) (Node.Own others) :=
  (own_getOrCreate (fun _ h => Option.some.inj h ▸ hp) ..).bind fun _ hn => own_setContent hn ..

theorem within_link {source target : Node} (hs : source.Own others) (ht : target.Own others)
    (type : EdgeType) (name : String) : Safe (.within i others) (link source target type name) :=
  .of_runs fun _ _ => runs_link fun e hk => by
    have h1 : e.source = source.id := congrArg EdgeKey.source hk
    have h2 : e.target = target.id := congrArg EdgeKey.target hk
    exact ⟨h1 ▸ hs, h2 ▸ ht⟩

theorem within_unlink {source target : Node} (hs : source.Own others) (type : EdgeType)
    (name : String) : Safe (.within i others) (unlink source target type name) :=
  .of_runs fun _ _ => runs_unlink fun e hk => by
    have h1 : e.source = source.id := congrArg EdgeKey.source hk
    exact .inl (h1 ▸ hs)

/-- What is deleted below a node of its own is its own. -/
theorem within_cascadeDelete {n : Node} (hn : n.Own others) (includingSelf : Bool) :
    Safe (.within i others) (cascadeDelete n includingSelf) := by
  refine ⟨fun w hI hw => ?_⟩
  have hD : Downward (Event.Within i others) w (Node.Own others) :=
    ⟨fun hid _ h => (congrArg others hid).symm.trans h, fun hr hw' hp hD hc hparent =>
      ((hr.fenced hI).parents hc hparent).symm.trans hD⟩
  refine ((runs_cascadeDelete (fun m e hm he => ?_) (fun m r hm hr => ?_) (fun _ hm => hm) hD
    fun hr hm => ?_).weaken fun _ _ _ _ => trivial) hw
  · exact he.imp (fun h => (congrArg others h).trans hm) fun h => (congrArg others h).trans hm
  · exact (congrArg others hr).trans hm
  · exact (congrArg others ((hr.sound hw).wellFormed.nodes.owned hm)).trans hn

/-- Records of a node of its own are deleted one by one. -/
theorem within_deleteRecords {n : Node} (hn : n.Own others) {l : List GenerationRecord}
    {w : Workspace} (hw : w.Sound)
    (hl : ∀ r ∈ l, r ∈ w.tables.allRecords ∧ r.nodeId = n.id) :
    Runs (Event.Within i others) w
      (forIn l PUnit.unit fun r _ => deleteRecord r.id >>= fun _ => pure (.yield ⟨⟩))
      fun _ _ => True :=
  (runs_deleteRecords hw.wellFormed (fun r hr => (hl r hr).1) fun r hr =>
    (congrArg others (hl r hr).2).trans hn).weaken fun _ _ _ _ => trivial

/-! ## Places of files -/

theorem own_makePlace {kind : FileKind} {parent : Node} (hp : parent.Own others)
    (parts : List String) :
    Gives (.within i others) (makePlace kind parent parts) (Node.Own others) := by
  induction parts generalizing parent with
  | nil => exact .pure hp
  | cons name rest ih =>
      have hparent (p : Node) (h : some parent = some p) : p.Own others := Option.some.inj h ▸ hp
      cases rest with
      | nil => exact own_getOrCreate hparent ..
      | cons next rest => exact (own_getOrCreate hparent ..).bind fun _ hd => ih hd

theorem own_placeOf {root : Node} (hr : root.Own others) (full : String) (kind : FileKind) :
    Gives (.within i others) (placeOf root full kind) (Node.Own others) :=
  .after (Safe.of_reader (reader_relativeParts root full)) fun parts => own_makePlace hr parts

theorem own_findPlace {kind : FileKind} {parent : Node} (hp : parent.Own others)
    (parts : List String) :
    Gives (.within i others) (findPlace kind parent parts) fun o =>
      ∀ n, o = some n → n.Own others := by
  induction parts generalizing parent with
  | nil => exact .pure fun n h => Option.some.inj h ▸ hp
  | cons name rest ih =>
      have hparent (p : Node) (h : some parent = some p) : p.Own others := Option.some.inj h ▸ hp
      cases rest with
      | nil => exact own_child? hparent kind.file name
      | cons next rest =>
          rw [findPlace.eq_3 kind parent name _ (List.cons_ne_nil next rest)]
          refine (own_child? hparent kind.dir name).bind fun o hd => ?_
          cases o with
          | some d => exact ih (hd d rfl)
          | none => exact .pure fun n h => by cases h

theorem own_findPlaceOf {root : Node} (hr : root.Own others) (full : String) (kind : FileKind) :
    Gives (.within i others) (findPlaceOf root full kind) fun o => ∀ n, o = some n → n.Own others :=
  .after (Safe.of_reader (reader_relativeParts root full)) fun parts => own_findPlace hr parts

theorem own_filesFrom {kind : FileKind} (fuel : Nat) {parent : Node} (hp : parent.Own others)
    (dir : Path) :
    Gives (.within i others) (filesFrom kind fuel parent dir) fun l =>
      ∀ e ∈ l, e.2.Own others := by
  induction fuel generalizing parent dir with
  | zero => exact .throw _
  | succ fuel ih =>
      refine (own_children hp none).bind fun cs hcs => ?_
      have step (c : Node) (hc : c ∈ cs) : Gives (.within i others)
          (if c.type == kind.dir then filesFrom kind fuel c (dir.child c.name)
          else if c.type == kind.file then return [(dir.child c.name, c)] else return [])
          fun l => ∀ e ∈ l, e.2.Own others := by
        refine .ite (ih (hcs c hc) (dir.child c.name)) (.ite (.pure fun e he => ?_)
          (.pure fun e he => ?_))
        · rw [List.mem_singleton.mp he]
          exact hcs c hc
        · cases he
      refine (Gives.mapM step).bind fun found hfound => .pure fun e he => ?_
      obtain ⟨l, hl, he⟩ := List.mem_flatten.mp he
      exact hfound l hl e he

theorem own_fileNodes {root : Node} (hr : root.Own others) (kind : FileKind) :
    Gives (.within i others) (fileNodes root kind) fun l => ∀ e ∈ l, e.2.Own others := by
  refine .after (Safe.of_reader reader_depthBound) fun fuel => ?_
  refine .after (Safe.of_reader (reader_rootPath root)) fun dir => ?_
  exact (own_filesFrom fuel hr dir).bind fun _ h => .pure fun e he => h e (Sorting.mem_sort.mp he)

end Graph

end IntentBuild
