import IntentBuild.Proofs.Build.Frame
import IntentBuild.Proofs.Operation.Session

/-!
# Requests that spare a manifest

Of all requests only a few can change the synced map of a project otherwise than by synchronising
it: those that put a node in the place of the manifest or delete one (`Request.Spares`).  The
others leave the map and the project alone (`Request.runs_op_spares`), also when they build or
synchronise other projects.
-/

namespace IntentBuild

open Op

namespace DepsFile

variable {p q : Node} {i : String} {c : BuildContext} {w : Workspace}

/-- The changes that leave the synced map and the project alone, in the instance of the project. -/
def guarding (p : Node) (i : String) : Regime where
  admits := KeepsMap p i
  holds w := Handle p w ∧ w.graph.instanceId = i
  lasts _ hr h := ⟨h.1.reach hr, hr.instanceId_eq.trans h.2⟩

theorem declares_guarding (p : Node) (i : String) : (guarding p i).Declares where
  manifest n ht hj _ := by rw [Node.members, hj]; rfl
  redeclare old new h _ := h.other (by decide)
  link _ := trivial
  unlink _ _ := trivial

/-- The stages of any project leave the synced map of a project alone. -/
theorem builds_guarding (hp : p.IsProject) (i : String) (c : BuildContext) :
    (guarding p i).Builds c where
  toDeclares := declares_guarding p i
  calls := trivial
  record _ := trivial
  dropRecord _ := trivial
  keep old new _ h _ _ := by rw [h]
  text old new _ h _ := by rw [h]
  node n ht hk := absurd (congrArg NodeKey.type hk) ht
  content old new ht hk := absurd (congrArg NodeKey.type hk) ht
  forget hI hn ht := by
    refine (runs_cascadeDelete_type hp hI.1 hn ?_).mono fun _ he => he.keepsMap
    rcases ht with ht | ht <;> rw [ht] <;> decide
  summary _ _ := trivial
  entry _ _ _ := ⟨fun _ => trivial, trivial⟩
  source _ _ _ := trivial

/-- A project that is synchronised leaves the synced maps of other projects alone. -/
theorem safe_sync_guarding (hq : q.id ≠ p.id) : Safe (guarding p i) (sync q) := by
  refine safe_sync (declares_guarding p i) (fun old new _ hparent hk => ?_)
    fun _ _ => ⟨trivial, trivial⟩
  rw [show old.parent = some p.id from congrArg NodeKey.parent hk, Option.some.injEq] at hparent
  exact absurd hparent.symm hq

end DepsFile

namespace Request

open DepsFile

/-- The request puts no node with a synced map in the place of the manifest of a project, deletes
neither of them, and neither synchronises nor builds the project. -/
def Spares (p : Node) (w : Workspace) : Request → Prop
  | getOrCreate parent type name json =>
      (⟨parent.map Node.id, w.graph.instanceId, type, name⟩ : NodeKey) =
        Manifest.address p w.graph.instanceId → Assoc.get? "synced" (json.getD []) = none
  | setContent n _ json _ => json = .keep ∨ ∀ {m}, w.tables.node? n.id = some m →
      m.key ≠ Manifest.address p w.graph.instanceId
  | upsertDerived parent type name _ _ =>
      (⟨some parent.id, w.graph.instanceId, type, name⟩ : NodeKey) ≠
        Manifest.address p w.graph.instanceId
  | cascadeDelete n _ => ∀ {m}, w.tables.node? n.id = some m →
      m.id ≠ p.id ∧ m.key ≠ Manifest.address p w.graph.instanceId
  | sync q => q.id ≠ p.id
  | build _ _ name _ => ∀ {q : Project}, q.Found name w → q.node.id ≠ p.id
  | _ => True

variable {p : Node} {i : String} {r : Request} {w : Workspace}

/-- A request that spares the manifest leaves the synced map and the project alone. -/
theorem runs_op_spares (hp : p.IsProject) (hh : Handle p w) (hr : r.Spares p w) :
    Runs (KeepsMap p w.graph.instanceId) w r.op fun _ _ => True := by
  have hI : (guarding p w.graph.instanceId).holds w := ⟨hh, rfl⟩
  have hR := declares_guarding p w.graph.instanceId
  have hB := builds_guarding hp w.graph.instanceId
  have hN (n : Node) (ht : n.type ≠ .deps) : KeepsMap p w.graph.instanceId (.node n) :=
    fun hk => absurd (congrArg NodeKey.type hk) ht
  have hC (old new : Node) (ht : old.type ≠ .deps) :
      KeepsMap p w.graph.instanceId (.content old new) :=
    fun hk => absurd (congrArg NodeKey.type hk) ht
  have done {α : Type} {x : Op α} (hx : Safe (guarding p w.graph.instanceId) x) :
      Runs (KeepsMap p w.graph.instanceId) w (x >>= fun _ => pure ()) fun _ _ => True :=
    (hx.bind fun _ => .pure _).runs w hI
  cases r with
  | getOrCreate parent type name json =>
      refine (Graph.runs_getOrCreate fun n hk hj _ => ?_).bind fun _ _ _ _ _ => .pure trivial
      intro ha
      rw [Node.members, hj]
      exact hr (hk.symm.trans ha)
  | placeOf root full kind =>
      exact done (Graph.safe_placeOf fun n _ hj _ => by rw [Node.members, hj]; rfl)
  | setContent n content json stamp =>
      refine (Graph.runs_setContent fun old new ho hrev hk => ?_).bind fun _ _ _ _ _ => .pure trivial
      rcases hr with rfl | hr
      · rw [Node.members, hrev.json]
        rfl
      · exact absurd hk (hr ho)
  | upsertDerived parent type name json content =>
      have hput : Runs (KeepsMap p w.graph.instanceId) w
          (Graph.upsertDerived parent type name json content) fun _ _ => True := by
        intro hw
        have hget : Runs (KeepsMap p w.graph.instanceId) w
            (Graph.getOrCreate (some parent) type name none) _ :=
          Graph.runs_getOrCreate fun n hk _ _ ha => absurd (hk.symm.trans ha) hr
        refine (hget.bind fun n w' hw' _ hf => ?_) hw
        obtain ⟨hn, hk⟩ := hf.node? hw.wellFormed
        refine (Graph.runs_setContent fun old new ho hrev ha => ?_).weaken fun _ _ _ _ => trivial
        rw [hn, Option.some.injEq] at ho
        exact absurd (hk.symm.trans (ho ▸ ha)) hr
      exact hput.bind fun _ _ _ _ _ => .pure trivial
  | link => exact done (Graph.safe_link fun _ => trivial)
  | unlink => exact done (Graph.safe_unlink fun _ => trivial)
  | cascadeDelete n includingSelf =>
      exact ((runs_cascadeDelete_falls hp.parent hh includingSelf hr).mono
        fun _ he => he.keepsMap).bind fun _ _ _ _ _ => .pure trivial
  | store => exact done (Cache.safe_store (fun _ _ => trivial) fun _ => trivial)
  | delete => exact done (Cache.safe_delete (fun _ => trivial) ..)
  | invalidate => exact done (Cache.safe_invalidate (fun _ => trivial) _)
  | applyDeltas => exact done (Manifest.safe_applyDeltas hR ..)
  | replaceDeclared => exact done (Manifest.safe_replaceDeclared hR ..)
  | reconcile => exact done (Manifest.safe_reconcile hR _)
  | sync q => exact done (safe_sync_guarding hr)
  | setup =>
      refine done (Project.safe_setup (fun n hn => hN n fun ht => ?_) (fun _ => trivial) ..)
      rw [ht] at hn
      exact absurd hn (by decide)
  | install => exact done (Registry.safe_install hN hC ..)
  | uninstall =>
      refine done (Registry.safe_remove (fun hI hn ht hw => ?_) ..)
      refine ((runs_cascadeDelete_type hp hI.1 (.of_node? hw hn) ?_).mono
        fun _ he => he.keepsMap) hw
      rw [ht]
      decide
  | build b s name plan =>
      have hlaunch : Runs (KeepsMap p w.graph.instanceId) w (Build.launch b s name plan)
          fun _ _ => True := Build.runs_launch hR trivial hI b fun hfound =>
        ⟨(hB _).carries, safe_sync_guarding (hr hfound)⟩
      exact hlaunch.bind fun _ _ _ _ _ => .pure trivial

end Request

end IntentBuild
