import IntentBuild.Proofs.Build.Budget

/-!
# What a unit that succeeds has done

A run of a unit that succeeds has three parts (`Work.run_eq_ok`).  Before its result is applied, at most
the node of its derived data was made, and records came and went (`Event.Prepares`).  Then the result was
applied, and at last the node was stamped (`Event.Stamps`).

Where one unit runs at a time, what holds of the units so far is carried along a row of units that
succeeds (`Work.runAll_fold`).
-/

namespace IntentBuild

open Op

/-- What a unit changes before it applies its result. -/
def Event.Prepares : Event → Prop
  | .node n => n.type ∈ Work.derivedTypes
  | .calls | .record _ | .dropRecord _ => True
  | _ => False

/-- A node is changed, but for what it holds. -/
def Event.Stamps : Event → Prop
  | .content old new => new.key = old.key ∧ new.members = old.members ∧ new.content = old.content
  | _ => False

theorem Event.Prepares.clears {e : Event} (he : e.Prepares) (d : Path) (k : List String) :
    e.Clears d k := by
  cases e <;> first | exact he.elim | trivial

theorem Event.Stamps.clears {e : Event} (he : e.Stamps) (d : Path) (k : List String) :
    e.Clears d k := by
  cases e <;> first | exact he.elim | trivial

namespace Work

variable {ρ : Type} {u : Work ρ} {r : Runner} {w w' : Workspace}

theorem Generative.safe_ask (hu : u.Generative) : Safe (.only Event.Prepares) u.ask := by
  obtain ⟨file, type, name, hnode, htype⟩ := hu.node
  have hmade : Safe (.only Event.Prepares) u.node := by
    rw [hnode]
    exact Graph.safe_getOrCreate fun n hn _ => by
      change n.type ∈ derivedTypes
      rwa [hn]
  exact .reader (reader_failIfCancelled _) fun _ => .reader hu.prompt fun _ =>
    .reader (reader_inputTime u) fun _ => .bind hmade fun _ => .lift _ fun _ => .pure _

/-- What is surfaced without a failure has no errors. -/
theorem surface_eq_ok {label : String} {d : Diagnostics} (h : (surface label d).run w = .ok ⟨⟩ w') :
    d.errors = [] := by
  obtain ⟨_, _, _, h⟩ := bind_eq_ok.mp h
  obtain ⟨_, _, _, h⟩ := bind_eq_ok.mp h
  cases he : d.errors with
  | nil => rfl
  | cons => rw [he] at h; cases h

/-- The parts of a run that succeeded with a result. -/
structure Applied (u : Work ρ) (a : ρ) (w w₁ w₂ w' : Workspace) : Prop where
  /-- The result was obtained. -/
  prepared : Reach Event.Prepares w w₁
  /-- The result has passed the check. -/
  checked : ∃ n, u.check n a = .ok ()
  /-- The result was applied. -/
  applied : (u.apply a).run w₁ = .ok ⟨⟩ w₂
  /-- The node was stamped. -/
  stamped : Reach Event.Stamps w₂ w'
  /-- The result has no errors. -/
  clean : (u.schema.diagnostics a).errors = []

theorem run_eq_ok (hu : u.Generative) (hf : u.Fits .any) (hw : w.Sound) {report : UnitReport ρ}
    (h : (u.run r).run w = .ok report w') : ∃ w₁ w₂, u.Applied report.result w w₁ w₂ w' := by
  rw [run_eq] at h
  obtain ⟨q, w₀, hask, h⟩ := bind_eq_ok.mp h
  obtain ⟨⟨a, attempts⟩, w₁, hobtain, h⟩ := bind_eq_ok.mp h
  obtain ⟨hasked, -⟩ := (hu.safe_ask.runs w trivial).ok hw hask
  have hw₀ := hasked.sound hw
  obtain ⟨hobtained, hchecked⟩ := (runs_obtain (A := Event.Prepares) trivial (fun _ => trivial)
    fun _ _ _ => trivial).ok hw₀ hobtain
  have hw₁ := hobtained.sound hw₀
  obtain ⟨_, w₂, happly, h⟩ := bind_eq_ok.mp h
  obtain ⟨_, w₃, hstamp, h⟩ := bind_eq_ok.mp h
  obtain ⟨_, w₄, hsurface, h⟩ := bind_eq_ok.mp h
  cases h
  obtain ⟨n, hn⟩ := hchecked
  have hw₂ := (((hf.apply hn).runs w₁ trivial).ok hw₁ happly).1.sound hw₁
  have hstamps : Safe (.only Event.Stamps) (stamp q.node q.changed) :=
    safe_stamp (R := .only Event.Stamps) ⟨fun _ _ hk hm hc => ⟨hk, hm, hc⟩⟩ _ _
  obtain ⟨hstamped, -⟩ := (hstamps.runs w₂ trivial).ok hw₂ hstamp
  have hsurfaced := ((safe_surface (R := .only Event.Stamps) ..).runs w₃ trivial).ok
    (hstamped.sound hw₂) hsurface
  exact ⟨w₁, w₂,
    { prepared := hasked.trans hobtained
      checked := ⟨n, hn⟩
      applied := happly
      stamped := hstamped.trans hsurfaced.1
      clean := surface_eq_ok hsurface }⟩

/-! ## Rows of units -/

/-- What every unit carries on from the units before it holds of all units of a row that succeeds, one
after the other. -/
theorem runAll_fold {us : List (Work ρ)} (hone : r.concurrency ≤ 1) (hf : ∀ u ∈ us, u.Fits .any)
    (hw : w.Sound)
    {J : List (Work ρ) → Workspace → Prop} (hJ : J [] w)
    (hstep : ∀ vs u, vs ++ [u] <+: us → ∀ {w₁ w₂ report}, w₁.Sound → Reach Event.Any w w₁ →
      J vs w₁ → (u.run r).run w₁ = .ok report w₂ → J (vs ++ [u]) w₂)
    {reports : List (UnitReport ρ)} (h : (runAll us r).run w = .ok reports w') : J us w' := by
  rw [runAll_eq (.inl hone)] at h
  refine ((Runs.mapM_fold (A := Event.Any) (J := fun vs _ => J vs) ?_ hJ).ok hw h).2
  intro vs _ u hpre w₁ hw₁ hreach hvs
  have hu : u ∈ us := hpre.subset (List.mem_append_right _ (List.mem_singleton_self u))
  have hsafe : Safe .any (u.run r) := (hf u hu).run Regime.records_any r
  exact (hsafe.runs w₁ trivial).and_run.weaken fun _ _ _ hrun => hstep vs u hpre hw₁ hreach hvs hrun.1

/-- After a row of units for different items, one after the other, each item has what its unit leaves,
where the units of the others keep it. -/
theorem runAll_each {β : Type} {R : Regime} {l : List β} {us : List (Work ρ)} {M : β → Work ρ → Prop}
    {D : β → Workspace → Prop} (hone : r.concurrency ≤ 1) (hK : R.Records) (hf : ∀ u ∈ us, u.Fits R)
    (hw : w.Sound) (hI : R.holds w) (hl : l.Nodup) (hmade : List.Forall₂ M l us)
    (hown : ∀ b ∈ l, ∀ {u v v' report}, M b u → v.Sound → Reach R.admits w v →
      (u.run r).run v = .ok report v' → D b v')
    (hother : ∀ b ∈ l, ∀ a ∈ l, a ≠ b → ∀ {u v v' report}, M a u → v.Sound → Reach R.admits w v →
      (u.run r).run v = .ok report v' → D b v → D b v')
    {reports : List (UnitReport ρ)} (h : (runAll us r).run w = .ok reports w') :
    Reach R.admits w w' ∧ ∀ b ∈ l, D b w' := by
  have go {rest : List β} {vs : List (Work ρ)} (hrest : List.Forall₂ M rest vs) {done : List β}
      {v : Workspace} (hdone : done ++ rest = l) (hvs : ∀ u ∈ vs, u.Fits R) (hv : v.Sound)
      (hreach : Reach R.admits w v) (hD : ∀ b ∈ done, D b v) {reports : List (UnitReport ρ)}
      (h : (vs.mapM fun u : Work ρ => u.run r).run v = .ok reports w') :
      Reach R.admits w w' ∧ ∀ b ∈ l, D b w' := by
    induction hrest generalizing done v reports with
    | nil =>
        cases h
        rw [List.append_nil] at hdone
        exact ⟨hreach, hdone ▸ hD⟩
    | @cons a u rest vs hu _ ih =>
        rw [List.mapM_cons] at h
        obtain ⟨report, v₁, hrun, h⟩ := bind_eq_ok.mp h
        obtain ⟨reports', v₂, hrest, h⟩ := bind_eq_ok.mp h
        cases h
        have hmem {b : β} (hb : b ∈ done) : b ∈ l := hdone ▸ List.mem_append_left _ hb
        have ha : a ∈ l := hdone ▸ List.mem_append_right _ (.head _)
        have hnew : ∀ b ∈ done, a ≠ b := by
          rintro b hb rfl
          exact (List.nodup_append.mp (hdone ▸ hl)).2.2 a hb a (.head _) rfl
        have hstep := ((((hvs u (.head _)).run hK r).runs v (R.lasts hw hreach hI)).ok hv hrun).1
        have hdone' : (done ++ [a]) ++ rest = l := by rw [← hdone, List.append_assoc]; rfl
        refine ih hdone'
          (fun u hu => hvs u (.tail _ hu)) (hstep.sound hv) (hreach.trans hstep) (fun b hb => ?_) hrest
        rcases List.mem_append.mp hb with hb | hb
        · exact hother b (hmem hb) a ha (hnew b hb) hu hv hreach hrun (hD b hb)
        · exact List.mem_singleton.mp hb ▸ hown a ha hu hv hreach hrun
  rw [runAll_eq (.inl hone)] at h
  exact go hmade (List.nil_append l) hf hw (.refl w) (fun b hb => absurd hb List.not_mem_nil) h

end Work

end IntentBuild
