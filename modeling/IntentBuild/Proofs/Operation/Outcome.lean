import IntentBuild.Proofs.Operation.Runs

/-!
# How operations end

`Op.Ends w x Q F` says that the operation `x`, run from the sound workspace `w`, either gives a
value that satisfies `Q` with the workspace that it leaves, or fails and leaves a workspace that
satisfies `F`.  Where `F` is never met, the operation does not fail.

Writing the document of the graph can always fail, but within a transaction nothing is written.
So there a change of the tables does not fail for any other reason than its own.
-/

namespace IntentBuild.Op

variable {α β σ ε : Type} {w : Workspace}

/-- The second workspace comes from the first one, with as many open transactions. -/
structure Keeps (w w' : Workspace) : Prop where
  /-- It is reached by changes of any kind. -/
  reach : Reach Event.Any w w'
  /-- As many transactions are open. -/
  depth : w'.graph.depth = w.graph.depth

theorem Keeps.refl (w : Workspace) : Keeps w w := ⟨.refl w, rfl⟩

theorem Keeps.trans {w' w'' : Workspace} (h : Keeps w w') (h' : Keeps w' w'') : Keeps w w'' :=
  ⟨h.reach.trans h'.reach, h'.depth.trans h.depth⟩

theorem Keeps.of_quiet {e : Event} {w' : Workspace} (he : e.Quiet) (h : Happens e w w')
    (hd : w'.graph.depth = w.graph.depth) : Keeps w w' :=
  ⟨.quiet he h, hd⟩

/-- A result that satisfies one of two conditions. -/
def Ended (w : Workspace) (Q : α → Workspace → Prop) (F : Workspace → Prop) :
    EStateM.Result Failure Workspace α → Prop
  | .ok a w' => Keeps w w' ∧ Q a w'
  | .error _ w' => Keeps w w' ∧ F w'

theorem Ended.trans {Q : α → Workspace → Prop} {F : Workspace → Prop} {w' : Workspace}
    {r : EStateM.Result Failure Workspace α} (hr : Ended w' Q F r) (h : Keeps w w') :
    Ended w Q F r := by
  cases r with
  | ok a w'' => exact ⟨h.trans hr.1, hr.2⟩
  | error e w'' => exact ⟨h.trans hr.1, hr.2⟩

theorem Ended.weaken {Q Q' : α → Workspace → Prop} {F F' : Workspace → Prop}
    {r : EStateM.Result Failure Workspace α} (hr : Ended w Q F r)
    (hQ : ∀ a w', Keeps w w' → Q a w' → Q' a w') (hF : ∀ w', Keeps w w' → F w' → F' w') :
    Ended w Q' F' r := by
  cases r with
  | ok a w' => exact ⟨hr.1, hQ a w' hr.1 hr.2⟩
  | error e w' => exact ⟨hr.1, hF w' hr.1 hr.2⟩

/-- The operation gives a value with the first condition, or fails with the second one. -/
def Ends (w : Workspace) (x : Op α) (Q : α → Workspace → Prop) (F : Workspace → Prop) : Prop :=
  w.Sound → Ended w Q F (x.run w)

namespace Ends

variable {x : Op α} {f : α → Op β} {Q Q' : α → Workspace → Prop} {R : β → Workspace → Prop}
  {F F' : Workspace → Prop}

theorem pure {a : α} (h : Q a w) : Ends w (Pure.pure a) Q F := fun _ => ⟨.refl w, h⟩

theorem throw (e : Failure) (h : F w) : Ends w (MonadExcept.throw e) Q F := fun _ => ⟨.refl w, h⟩

/-- An operation after another one, where what the first one gave is known. -/
theorem bind_run (hx : Ends w x Q F)
    (hf : ∀ a w', x.run w = .ok a w' → w'.Sound → Keeps w w' → Q a w' → Ends w' (f a) R F) :
    Ends w (x >>= f) R F := by
  intro hw
  have h := hx hw
  cases hxw : x.run w with
  | ok a w' =>
      rw [hxw] at h
      rw [bind_ok hxw]
      have hw' := h.1.reach.sound hw
      exact (hf a w' hxw hw' h.1 h.2 hw').trans h.1
  | error e w' =>
      rw [hxw] at h
      rw [bind_error hxw]
      exact h

theorem bind (hx : Ends w x Q F)
    (hf : ∀ a w', w'.Sound → Keeps w w' → Q a w' → Ends w' (f a) R F) :
    Ends w (x >>= f) R F :=
  hx.bind_run fun a w' _ => hf a w'

/-- An operation that gives its value at once. -/
theorem reads {a : α} (hx : x.run w = .ok a w) (h : Ends w (f a) R F) : Ends w (x >>= f) R F := by
  intro hw
  rw [bind_ok hx]
  exact h hw

/-- A reader that may fail. -/
theorem reader (hx : Reader x) (hF : F w) (h : ∀ a, x.run w = .ok a w → Ends w (f a) R F) :
    Ends w (x >>= f) R F := by
  rcases hx.out w with ⟨a, ha⟩ | ⟨e, he⟩
  · exact reads ha (h a ha)
  · intro _
    rw [bind_error he]
    exact ⟨.refl w, hF⟩

theorem weaken (h : Ends w x Q F) (hQ : ∀ a w', Keeps w w' → Q a w' → Q' a w')
    (hF : ∀ w', Keeps w w' → F w' → F' w') : Ends w x Q' F' :=
  fun hw => (h hw).weaken hQ hF

/-- An operation that does not fail. -/
theorem never (h : Ends w x Q F) (hF : ∀ w', ¬ F w') : Ends w x Q F' :=
  h.weaken (fun _ _ _ h => h) fun w' _ h => absurd h (hF w')

theorem ite {c : Prop} [Decidable c] {x y : Op α} (hx : c → Ends w x Q F)
    (hy : ¬ c → Ends w y Q F) : Ends w (if c then x else y) Q F := by
  split
  · exact hx ‹_›
  · exact hy ‹_›

/-- A loop keeps a condition on a state that every step takes on. -/
theorem forIn {l : List β} {body : β → PUnit → Op (ForInStep PUnit)} {g : σ → β → σ}
    {I : σ → Workspace → Prop}
    (h : ∀ b ∈ l, ∀ s w', w'.Sound → Keeps w w' → I s w' →
      Ends w' (body b ⟨⟩) (fun r w'' => r = .yield ⟨⟩ ∧ I (g s b) w'') F)
    {s : σ} (hI : I s w) :
    Ends w (ForIn.forIn l PUnit.unit body) (fun _ w' => I (l.foldl g s) w') F := by
  induction l generalizing w s with
  | nil => exact pure hI
  | cons b l ih =>
      rw [List.forIn_cons]
      intro hw
      refine bind (h b (.head _) s w hw (.refl w) hI) (fun r w' _ hk hr => ?_) hw
      obtain ⟨rfl, hI⟩ := hr
      exact ih (fun c hc s w'' hw'' hk' => h c (.tail _ hc) s w'' hw'' (hk.trans hk')) hI

/-- What holds of the workspace that is left, whether the operation fails or not. -/
theorem after (h : Ends w x (fun _ => F) F) (hw : w.Sound) :
    Keeps w (x.after w) ∧ F (x.after w) := by
  have hr := h hw
  unfold Op.after
  cases hx : x.run w with
  | ok a w' => rw [hx] at hr; exact hr
  | error e w' => rw [hx] at hr; exact hr

end Ends

/-! ## Readers in a row -/

/-- A fold of readers gives the fold of their values. -/
theorem foldlM_eq {l : List β} {g : α → β → Op α} {f : α → β → α}
    (h : ∀ b ∈ l, ∀ a, (g a b).run w = .ok (f a b) w) (a : α) :
    (l.foldlM g a).run w = .ok (l.foldl f a) w := by
  induction l generalizing a with
  | nil => rfl
  | cons b l ih =>
      rw [List.foldlM_cons, bind_ok (h b (.head _) a), List.foldl_cons]
      exact ih (fun c hc => h c (.tail _ hc)) _

/-! ## Writing the graph -/

theorem ends_save : Ends w save (fun _ w' => w'.tables = w.tables) fun w' => w'.tables = w.tables := by
  have dirs (p : Path) : Ends w (makeDirs p)
      (fun _ w' => ∃ t, w' = { w with files := t }) fun w' => w'.tables = w.tables := by
    refine .reads rfl ?_
    intro _
    cases hm : w.files.makeDirs p with
    | ok t =>
        exact ⟨.of_quiet (e := .makeDirs) trivial (.makeDirs hm) rfl, t, rfl⟩
    | error e => exact ⟨.refl w, rfl⟩
  refine .reads rfl <| (dirs _).bind ?_
  rintro _ _ _ _ ⟨t, rfl⟩
  refine .reads rfl ?_
  intro _
  generalize hp : FileTree.place _ _ _ _ = r
  cases r with
  | ok t' => exact ⟨.of_quiet (e := .save) trivial (.save hp) rfl, rfl⟩
  | error e => exact ⟨.refl _, rfl⟩

/-- Changed tables are put in place, also when they cannot be written. -/
theorem commit_ended {w₀ : Workspace} {t : Tables} (h : Keeps w₀ (w.withTables t))
    (hw : w₀.Sound) : Ended w₀ (fun _ w' => w'.tables = t)
      (fun w' => w₀.graph.depth = 0 ∧ w'.tables = t) ((commit t).run w) := by
  rw [commit_eq]
  split
  · rename_i hd
    have h₀ : w₀.graph.depth = 0 := h.depth ▸ hd
    exact ((ends_save (h.reach.sound hw)).trans h).weaken (fun _ _ _ h => h)
      fun _ _ hf => ⟨h₀, hf⟩
  · exact ⟨h, rfl⟩

/-- The end of a transaction changes nothing in the tables, and fails only if it is the
outermost one. -/
theorem endTransaction_ended (hw : w.Sound) :
    (∃ w', endTransaction.run w = .ok ⟨⟩ w' ∧ Reach Event.None w w' ∧
      w'.graph.depth = w.graph.depth - 1) ∨
    ∃ e w', endTransaction.run w = .error e w' ∧ Reach Event.None w w' ∧
      w'.graph.depth = w.graph.depth - 1 ∧ w.graph.depth - 1 = 0 := by
  have hd : Reach Event.None w (w.atDepth (w.graph.depth - 1)) :=
    .quiet (e := .depth) trivial (.depth w _)
  rw [endTransaction_eq]
  split
  · rename_i hc
    have hw' := hd.sound hw
    have hr := runs_save (A := Event.None) hw'
    have hs := ends_save hw'
    cases hx : save.run (w.atDepth (w.graph.depth - 1)) with
    | ok _ w' =>
        rw [hx] at hr hs
        exact .inl ⟨w', rfl, hd.trans hr.1.reach, hs.1.depth⟩
    | error e w' =>
        rw [hx] at hr hs
        exact .inr ⟨e, w', rfl, hd.trans hr.reach, hs.1.depth, hc.1⟩
  · exact .inl ⟨_, rfl, hd, rfl⟩

/-- In a transaction an operation ends as it does without, unless the graph cannot be written. -/
theorem Ends.transaction {x : Op α} {Q : α → Workspace → Prop} {F : Workspace → Prop}
    (hQ : Calm Q) (hF : ∀ {w w'}, Reach Event.None w w' → F w → F w')
    (hQF : w.graph.depth = 0 → ∀ a w', Q a w' → F w')
    (hx : ∀ w', w'.Sound → Reach Event.None w w' → w'.graph.depth = w.graph.depth + 1 →
      Ends w' x Q F) :
    Ends w (Op.transaction x) Q F := by
  intro hw
  have h : Reach Event.None w (w.atDepth (w.graph.depth + 1)) :=
    .quiet (e := .depth) trivial (.depth w _)
  have hw₁ := h.sound hw
  have hr := hx _ hw₁ h rfl hw₁
  rw [transaction_eq]
  cases hxw : x.run (w.atDepth (w.graph.depth + 1)) with
  | ok a w' =>
      rw [hxw] at hr
      obtain ⟨⟨hreach, hdepth⟩, hq⟩ := hr
      have hdepth : w'.graph.depth = w.graph.depth + 1 := hdepth
      rcases endTransaction_ended (hreach.sound hw₁) with
        ⟨w'', he, hq', hd⟩ | ⟨e, w'', he, hq', hd, h0⟩
      · simp only [he]
        exact ⟨⟨(h.of_quiet.trans hreach).trans hq'.of_quiet, by omega⟩, hQ hq' hq⟩
      · simp only [he]
        exact ⟨⟨(h.of_quiet.trans hreach).trans hq'.of_quiet, by omega⟩,
          hF hq' (hQF (by omega) a w' hq)⟩
  | error e w' =>
      rw [hxw] at hr
      obtain ⟨⟨hreach, hdepth⟩, hf⟩ := hr
      have hdepth : w'.graph.depth = w.graph.depth + 1 := hdepth
      rcases endTransaction_ended (hreach.sound hw₁) with
        ⟨w'', he, hq', hd⟩ | ⟨e', w'', he, hq', hd, h0⟩
      · simp only [he]
        exact ⟨⟨(h.of_quiet.trans hreach).trans hq'.of_quiet, by omega⟩, hF hq' hf⟩
      · simp only [he]
        exact ⟨⟨(h.of_quiet.trans hreach).trans hq'.of_quiet, by omega⟩, hF hq' hf⟩

/-- Outside a transaction, changed tables are written when they are put in place. -/
theorem unsaved_of_commit {t : Tables} {w' : Workspace} {u : Unit} (h : (commit t).run w = .ok u w')
    (hd : w'.graph.depth = 0) : w'.graph.unsaved = false := by
  rw [commit_eq] at h
  split at h
  · exact unsaved_of_save h
  · rename_i hne
    cases h
    exact absurd hd hne

/-- After an outermost transaction that succeeds, nothing is left to write. -/
theorem unsaved_of_transaction {x : Op α} {a : α} {w' : Workspace}
    (h : (Op.transaction x).run w = .ok a w') (hd : w'.graph.depth = 0) :
    w'.graph.unsaved = false := by
  rw [transaction_eq] at h
  cases hx : x.run (w.atDepth (w.graph.depth + 1)) with
  | error e w₁ =>
      rw [hx] at h
      dsimp only at h
      cases he : endTransaction.run w₁ <;> rw [he] at h <;> cases h
  | ok b w₁ =>
      rw [hx] at h
      dsimp only at h
      cases he : endTransaction.run w₁ with
      | error e w₂ => rw [he] at h; cases h
      | ok u w₂ =>
          rw [he] at h
          cases h
          rw [endTransaction_eq] at he
          split at he
          · exact unsaved_of_save he
          · rename_i hc
            cases he
            exact Bool.eq_false_iff.mpr fun hu => hc ⟨hd, hu⟩

end IntentBuild.Op
