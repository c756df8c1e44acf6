import IntentBuild.Proofs.Operation.Event
import Mathlib.Data.List.Forall2

/-!
# What operations do

`Op.Runs A w x Q` says that the operation `x`, run from the sound workspace `w`, makes only changes
of the class `A`, whether it fails or not, and that what it gives, with the workspace that it
leaves, satisfies `Q`.  There is a rule for every way in which operations are put together, and
one for every elementary operation.  As every change keeps a workspace sound, the rules never ask
for it.

An operation that changes nothing at all is a *reader* (`Op.Reader`).
-/

namespace IntentBuild

/-- The class of changes with nothing in it, so that only quiet changes happen. -/
def Event.None : Event → Prop := fun _ => False

/-- The class of all changes. -/
def Event.Any : Event → Prop := fun _ => True

theorem Reach.tables_of_quiet {w w' : Workspace} (h : Reach Event.None w w') :
    w'.tables = w.tables := by
  induction h with
  | refl => rfl
  | step _ he hs ih =>
      rcases he with hq | hn
      · exact (hs.tables_of_quiet hq).trans ih
      · exact hn.elim

/-- Quiet changes belong to every class. -/
theorem Reach.of_quiet {A : Event → Prop} {w w' : Workspace} (h : Reach Event.None w w') :
    Reach A w w' :=
  h.mono fun _ he => he.elim

/-- A class of changes with a condition that they do not end. -/
structure Regime where
  /-- The changes of the class. -/
  admits : Event → Prop
  /-- The condition. -/
  holds : Workspace → Prop
  /-- The changes do not end the condition. -/
  lasts : ∀ {w w'}, w.Sound → Reach admits w w' → holds w → holds w'

/-- The changes of a class, and no condition. -/
def Regime.only (A : Event → Prop) : Regime := ⟨A, fun _ => True, fun _ _ _ => trivial⟩

/-- All changes, and no condition. -/
def Regime.any : Regime := .only Event.Any

/-- The document of the graph can be written. -/
def Workspace.Writable (w : Workspace) : Prop := ∃ w', Op.save.run w = .ok ⟨⟩ w'

namespace Op

variable {α β ε : Type} {A B : Event → Prop} {w : Workspace}

/-! ## Evaluating -/

theorem bind_ok {x : Op α} {f : α → Op β} {a : α} {w w' : Workspace} (h : x.run w = .ok a w') :
    (x >>= f).run w = (f a).run w' := by
  simp only [EStateM.run_bind, h]

theorem bind_error {x : Op α} {f : α → Op β} {e : Failure} {w w' : Workspace}
    (h : x.run w = .error e w') : (x >>= f).run w = .error e w' := by
  simp only [EStateM.run_bind, h]

/-- What follows an operation depends on what it gives and leaves. -/
theorem bind_run_congr {x : Op α} {f : α → Op β} {w v : Workspace} (h : x.run w = x.run v) :
    (x >>= f).run w = (x >>= f).run v := by
  cases hx : x.run v with
  | ok a w' => rw [bind_ok (h.trans hx), bind_ok hx]
  | error e w' => rw [bind_error (h.trans hx), bind_error hx]

theorem lift_ok (g : ε → Failure) (a : α) (w : Workspace) :
    (lift g (.ok a)).run w = .ok a w := rfl

theorem lift_error (g : ε → Failure) (e : ε) (w : Workspace) :
    (lift g (.error e) : Op α).run w = .error (g e) w := rfl

theorem tryCatch_ok {x : Op α} {h : Failure → Op α} {a : α} {w w' : Workspace}
    (hx : x.run w = .ok a w') : (tryCatch x h).run w = .ok a w' := by
  simp only [EStateM.run] at hx
  simp only [tryCatch, tryCatchThe, MonadExceptOf.tryCatch, EStateM.run]
  delta EStateM.tryCatch
  simp only [hx]

/-- What was changed before a failure stays changed when the failure is caught. -/
theorem tryCatch_error {x : Op α} {h : Failure → Op α} {e : Failure} {w w' : Workspace}
    (hx : x.run w = .error e w') : (tryCatch x h).run w = (h e).run w' := by
  simp only [EStateM.run] at hx
  simp only [tryCatch, tryCatchThe, MonadExceptOf.tryCatch, EStateM.run]
  delta EStateM.tryCatch
  simp only [hx]
  rfl

theorem tryFinally_eq (x : Op α) (y : Op β) (w : Workspace) :
    (tryFinally x y : Op α).run w =
      match x.run w with
      | .ok a w => match y.run w with
        | .ok _ w => .ok a w
        | .error e w => .error e w
      | .error e w => match y.run w with
        | .ok _ w => .error e w
        | .error e w => .error e w := by
  simp only [EStateM.run]
  cases hx : x w with
  | ok a w' => cases hy : y w' <;> simp [tryFinally, tryFinally', Functor.map, EStateM.map, hx, hy]
  | error e w' =>
      cases hy : y w' <;> simp [tryFinally, tryFinally', Functor.map, EStateM.map, hx, hy]

/-- A row of two operations succeeds just when both do. -/
theorem bind_eq_ok {x : Op α} {f : α → Op β} {b : β} {w w'' : Workspace} :
    (x >>= f).run w = .ok b w'' ↔ ∃ a w', x.run w = .ok a w' ∧ (f a).run w' = .ok b w'' := by
  cases h : x.run w with
  | ok a w' =>
      rw [bind_ok h]
      constructor
      · exact fun hf => ⟨a, w', rfl, hf⟩
      · rintro ⟨_, _, h, hf⟩
        cases h
        exact hf
  | error e w' =>
      rw [bind_error h]
      constructor
      · exact fun h => nomatch h
      · rintro ⟨_, _, h, _⟩
        cases h

/-- A row of two operations fails just when the first one does, or the second one after it. -/
theorem bind_eq_error {x : Op α} {f : α → Op β} {e : Failure} {w w'' : Workspace} :
    (x >>= f).run w = .error e w'' ↔
      x.run w = .error e w'' ∨ ∃ a w', x.run w = .ok a w' ∧ (f a).run w' = .error e w'' := by
  constructor
  · intro h
    cases hx : x.run w with
    | ok a w' => exact .inr ⟨a, w', rfl, (bind_ok hx).symm.trans h⟩
    | error e' w' =>
        cases (bind_error (f := f) hx).symm.trans h
        exact .inl rfl
  · rintro (hx | ⟨a, w', hx, hf⟩)
    · exact bind_error hx
    · exact (bind_ok hx).trans hf

/-- What an operation on every item of a list gives was given for one of the items. -/
theorem mem_of_mapM {f : α → Op β} {l : List α} {bs : List β} {w w' : Workspace}
    (h : (l.mapM f).run w = .ok bs w') : ∀ b ∈ bs, ∃ a ∈ l, ∃ w₁ w₂, (f a).run w₁ = .ok b w₂ := by
  induction l generalizing bs w with
  | nil => cases h; exact fun _ h => nomatch h
  | cons a l ih =>
      rw [List.mapM_cons] at h
      obtain ⟨b, w₁, ha, h⟩ := bind_eq_ok.mp h
      obtain ⟨bs', w₂, hl, h⟩ := bind_eq_ok.mp h
      cases h
      intro c hc
      rcases List.mem_cons.mp hc with rfl | hc
      · exact ⟨a, .head _, w, w₁, ha⟩
      · obtain ⟨d, hd, hrun⟩ := ih hl c hc
        exact ⟨d, .tail _ hd, hrun⟩

/-! ## Readers -/

/-- The operation changes nothing, whether it fails or not. -/
structure Reader (x : Op α) : Prop where
  /-- What comes of the operation. -/
  out : ∀ w, (∃ a, x.run w = .ok a w) ∨ ∃ e, x.run w = .error e w

namespace Reader

theorem pure (a : α) : Reader (Pure.pure a) := ⟨fun _ => .inl ⟨a, rfl⟩⟩

theorem throw (e : Failure) : Reader (MonadExcept.throw e : Op α) :=
  ⟨fun _ => .inr ⟨e, rfl⟩⟩

theorem bind {x : Op α} {f : α → Op β} (hx : Reader x) (hf : ∀ a, Reader (f a)) :
    Reader (x >>= f) := by
  refine ⟨fun w => ?_⟩
  rcases hx.out w with ⟨a, ha⟩ | ⟨e, he⟩
  · rcases (hf a).out w with ⟨b, hb⟩ | ⟨e, he⟩
    · exact .inl ⟨b, by rw [bind_ok ha, hb]⟩
    · exact .inr ⟨e, by rw [bind_ok ha, he]⟩
  · exact .inr ⟨e, bind_error he⟩

theorem get : Reader (MonadState.get : Op Workspace) := ⟨fun w => .inl ⟨w, rfl⟩⟩

theorem lift (f : ε → Failure) : ∀ r : Except ε α, Reader (Op.lift f r)
  | .ok a => pure a
  | .error e => throw (f e)

/-- A reader leaves the workspace as it is. -/
theorem eq {x : Op α} (hx : Reader x) {a : α} {w w' : Workspace}
    (h : x.run w = .ok a w') : w' = w := by
  rcases hx.out w with ⟨a', ha⟩ | ⟨e, he⟩
  · rw [h] at ha; cases ha; rfl
  · rw [h] at he; cases he

theorem eq_of_error {x : Op α} (hx : Reader x) {e : Failure} {w w' : Workspace}
    (h : x.run w = .error e w') : w' = w := by
  rcases hx.out w with ⟨a, ha⟩ | ⟨e', he⟩
  · rw [h] at ha; cases ha
  · rw [h] at he; cases he; rfl

theorem mapM {f : α → Op β} (hf : ∀ a, Reader (f a)) (l : List α) : Reader (l.mapM f) := by
  induction l with
  | nil => exact pure []
  | cons a l ih =>
      rw [List.mapM_cons]
      exact (hf a).bind fun b => ih.bind fun bs => pure (b :: bs)

/-- In related lists every second item is related to a first one. -/
theorem mem_of_forall₂ {R : α → β → Prop} {l : List α} {bs : List β} (h : List.Forall₂ R l bs)
    {b : β} (hb : b ∈ bs) : ∃ a ∈ l, R a b := by
  induction h with
  | nil => cases hb
  | cons hab _ ih =>
      rcases List.mem_cons.mp hb with rfl | hb
      · exact ⟨_, .head _, hab⟩
      · obtain ⟨a, ha, h⟩ := ih hb
        exact ⟨a, .tail _ ha, h⟩

/-- Readers in a row give one value for each item, all read from the same workspace. -/
theorem forall₂_of_mapM {f : α → Op β} (hf : ∀ a, Reader (f a)) {l : List α} {bs : List β}
    {w w' : Workspace} (h : (l.mapM f).run w = .ok bs w') :
    List.Forall₂ (fun a b => (f a).run w = .ok b w) l bs := by
  induction l generalizing bs w' with
  | nil => cases h; exact .nil
  | cons a l ih =>
      rw [List.mapM_cons] at h
      obtain ⟨b, w₁, ha, h⟩ := bind_eq_ok.mp h
      obtain ⟨bs', w₂, hl, h⟩ := bind_eq_ok.mp h
      cases h
      obtain rfl := (hf a).eq ha
      exact .cons ha (ih hl)

/-- Readers in a row give something for every item. -/
theorem exists_of_mapM {f : α → Op β} (hf : ∀ a, Reader (f a)) {l : List α} {bs : List β}
    {w w' : Workspace} (h : (l.mapM f).run w = .ok bs w') :
    ∀ a ∈ l, ∃ b ∈ bs, (f a).run w = .ok b w :=
  fun _ ha => mem_of_forall₂ (forall₂_of_mapM hf h).flip ha

/-- What readers in a row give was read from the same workspace. -/
theorem mem_of_mapM {f : α → Op β} (hf : ∀ a, Reader (f a)) {l : List α} {bs : List β}
    {w w' : Workspace} (h : (l.mapM f).run w = .ok bs w') :
    ∀ b ∈ bs, ∃ a ∈ l, (f a).run w = .ok b w :=
  fun _ hb => mem_of_forall₂ (forall₂_of_mapM hf h) hb

/-- Readers in a row give their values where each of them gives one. -/
theorem mapM_run {f : α → Op β} {l : List α} {w : Workspace}
    (h : ∀ a ∈ l, ∃ b, (f a).run w = .ok b w) : ∃ bs, (l.mapM f).run w = .ok bs w := by
  induction l with
  | nil => exact ⟨[], rfl⟩
  | cons a l ih =>
      obtain ⟨b, hb⟩ := h a (.head _)
      obtain ⟨bs, hbs⟩ := ih fun c hc => h c (.tail _ hc)
      exact ⟨b :: bs, by rw [List.mapM_cons, bind_ok hb, bind_ok hbs]; rfl⟩

theorem foldlM {f : β → α → Op β} (hf : ∀ b a, Reader (f b a)) (l : List α) (b : β) :
    Reader (l.foldlM f b) := by
  induction l generalizing b with
  | nil => exact pure b
  | cons a l ih => exact (hf b a).bind fun b => ih b

theorem ite {c : Prop} [Decidable c] {x y : Op α} (hx : Reader x) (hy : Reader y) :
    Reader (if c then x else y) := by
  split
  · exact hx
  · exact hy

end Reader

theorem reader_tables : Reader tables := Reader.get.bind fun _ => .pure _

theorem reader_instanceId : Reader instanceId := Reader.get.bind fun _ => .pure _

theorem reader_files : Reader files := Reader.get.bind fun _ => .pure _

theorem isFile_run (p : Path) (w : Workspace) : (isFile p).run w = .ok (w.files.isFile p) w := rfl

theorem reader_isFile (p : Path) : Reader (isFile p) := reader_files.bind fun _ => .pure _

theorem reader_readText (p : Path) : Reader (readText p) :=
  reader_files.bind fun _ => (Reader.lift _ _).bind fun _ => .lift _ _

theorem reader_readObject (p : Path) : Reader (readObject p) :=
  (reader_readText p).bind fun _ => .lift _ _

theorem reader_changedAt (p : Path) : Reader (changedAt p) :=
  reader_files.bind fun _ => (Reader.lift _ _).bind fun _ => .pure _

/-! ## Whole operations -/

/-- From the first workspace a whole operation came to the second one: by changes of a class, with
as many open transactions, and outside all transactions with nothing left to write that it could
write. -/
structure Way (A : Event → Prop) (w w' : Workspace) : Prop where
  /-- All changes belong to the class. -/
  reach : Reach A w w'
  /-- As many transactions are open. -/
  depth : w'.graph.depth = w.graph.depth
  /-- What is left to write was left before, or could not be written on the way. -/
  written : w'.graph.depth = 0 → w'.graph.unsaved = true →
    w.graph.unsaved = true ∨ ∃ v, Reach A w v ∧ Reach A v w' ∧ ¬ v.Writable

namespace Way

variable {w' w'' : Workspace}

theorem refl (w : Workspace) : Way A w w := ⟨.refl w, rfl, fun _ => .inl⟩

theorem trans (h : Way A w w') (h' : Way A w' w'') : Way A w w'' where
  reach := h.reach.trans h'.reach
  depth := h'.depth.trans h.depth
  written hd hu := by
    rcases h'.written hd hu with hu | ⟨v, hv, hv', hn⟩
    · exact (h.written (h'.depth.symm.trans hd) hu).imp_right fun ⟨v, hv, hv', hn⟩ =>
        ⟨v, hv, hv'.trans h'.reach, hn⟩
    · exact .inr ⟨v, h.reach.trans hv, hv', hn⟩

/-- A change that leaves transactions and what is to be written alone. -/
theorem single {e : Event} (he : e.Quiet ∨ A e) (hs : Happens e w w')
    (hd : w'.graph.depth = w.graph.depth) (hu : w'.graph.unsaved = w.graph.unsaved) : Way A w w' :=
  ⟨.single he hs, hd, fun _ h => .inl (hu ▸ h)⟩

theorem quiet {e : Event} (he : e.Quiet) (hs : Happens e w w')
    (hd : w'.graph.depth = w.graph.depth) (hu : w'.graph.unsaved = w.graph.unsaved) : Way A w w' :=
  single (.inl he) hs hd hu

theorem mono (hAB : ∀ e, A e → B e) (h : Way A w w') : Way B w w' where
  reach := h.reach.mono hAB
  depth := h.depth
  written hd hu := (h.written hd hu).imp_right fun ⟨v, hv, hv', hn⟩ =>
    ⟨v, hv.mono hAB, hv'.mono hAB, hn⟩

theorem of_quiet (h : Way Event.None w w') : Way A w w' := h.mono fun _ he => he.elim

theorem sound (h : Way A w w') (hw : w.Sound) : w'.Sound := h.reach.sound hw

end Way

/-! ## Rules -/

/-- From the workspace a whole operation came to the outcome by changes of a class, and what it
gives satisfies a condition. -/
def Leads (A : Event → Prop) (w : Workspace) (Q : α → Workspace → Prop) :
    EStateM.Result Failure Workspace α → Prop
  | .ok a w' => Way A w w' ∧ Q a w'
  | .error _ w' => Way A w w'

theorem Leads.trans {w w' : Workspace} {Q : α → Workspace → Prop}
    {r : EStateM.Result Failure Workspace α} (h : Way A w w') (hr : Leads A w' Q r) :
    Leads A w Q r := by
  cases r with
  | ok a w'' => exact ⟨h.trans hr.1, hr.2⟩
  | error e w'' => exact h.trans hr

theorem Leads.weaken {w : Workspace} {Q Q' : α → Workspace → Prop}
    {r : EStateM.Result Failure Workspace α} (hr : Leads A w Q r)
    (hQ : ∀ a w', Reach A w w' → Q a w' → Q' a w') : Leads A w Q' r := by
  cases r with
  | ok a w' => exact ⟨hr.1, hQ a w' hr.1.reach hr.2⟩
  | error e w' => exact hr

/-- The operation makes only changes of a class, and what it gives satisfies a condition. -/
def Runs (A : Event → Prop) (w : Workspace) (x : Op α) (Q : α → Workspace → Prop) : Prop :=
  w.Sound → Leads A w Q (x.run w)

/-- The workspace that an operation leaves behind, whether it fails or not. -/
def after (x : Op α) (w : Workspace) : Workspace :=
  match x.run w with
  | .ok _ w' => w'
  | .error _ w' => w'

/-- The operation gives a value that passes a test, in the workspace that it leaves. -/
def gives (x : Op α) (w : Workspace) (f : α → Workspace → Bool) : Bool :=
  match x.run w with
  | .ok a w' => f a w'
  | .error .. => false

theorem gives_eq_true {x : Op α} {f : α → Workspace → Bool} :
    x.gives w f = true ↔ ∃ a w', x.run w = .ok a w' ∧ f a w' = true := by
  unfold gives
  cases x.run w with
  | ok a w' =>
      refine ⟨fun h => ⟨a, w', rfl, h⟩, ?_⟩
      rintro ⟨_, _, heq, h⟩
      cases heq
      exact h
  | error e w' => exact ⟨nofun, by rintro ⟨_, _, heq, -⟩; cases heq⟩

theorem after_of_run {x : Op α} {a : α} {w' : Workspace} (h : x.run w = .ok a w') :
    x.after w = w' := by
  unfold after
  rw [h]

theorem after_bind_ok {x : Op α} {f : α → Op β} {a : α} {w' : Workspace} (h : x.run w = .ok a w') :
    (x >>= f).after w = (f a).after w' := by
  unfold after
  rw [bind_ok h]

theorem after_bind_error {x : Op α} {f : α → Op β} {e : Failure} {w' : Workspace}
    (h : x.run w = .error e w') : (x >>= f).after w = w' := by
  unfold after
  rw [bind_error h]

/-- What is made of a value changes nothing. -/
theorem after_bind_pure (x : Op α) (f : α → β) (w : Workspace) :
    (x >>= fun a => pure (f a)).after w = x.after w := by
  cases h : x.run w with
  | ok a w' =>
      rw [after_bind_ok h]
      unfold after
      rw [h]
      rfl
  | error e w' =>
      rw [after_bind_error h]
      unfold after
      rw [h]

theorem after_discard (x : Op α) (w : Workspace) : (do let _ ← x : Op Unit).after w = x.after w :=
  after_bind_pure x _ w

namespace Runs

variable {x : Op α} {f : α → Op β} {Q Q' : α → Workspace → Prop} {R : β → Workspace → Prop}

theorem ok (h : Runs A w x Q) (hw : w.Sound) {a : α} {w' : Workspace} (hx : x.run w = .ok a w') :
    Reach A w w' ∧ Q a w' := by
  have := h hw
  rw [hx] at this
  exact ⟨this.1.reach, this.2⟩

theorem error (h : Runs A w x Q) (hw : w.Sound) {e : Failure} {w' : Workspace}
    (hx : x.run w = .error e w') : Reach A w w' := by
  have := h hw
  rw [hx] at this
  exact this.reach

theorem way (h : Runs A w x Q) (hw : w.Sound) : Way A w (x.after w) := by
  have hr := h hw
  unfold Op.after
  cases hx : x.run w with
  | ok a w' => rw [hx] at hr; exact hr.1
  | error e w' => rw [hx] at hr; exact hr

theorem after (h : Runs A w x Q) (hw : w.Sound) : Reach A w (x.after w) := (h.way hw).reach

theorem pure {a : α} (h : Q a w) : Runs A w (Pure.pure a) Q := fun _ => ⟨.refl w, h⟩

theorem throw (e : Failure) : Runs A w (MonadExcept.throw e) Q := fun _ => .refl w

theorem bind (hx : Runs A w x Q)
    (hf : ∀ a w', w'.Sound → Reach A w w' → Q a w' → Runs A w' (f a) R) :
    Runs A w (x >>= f) R := by
  intro hw
  have h := hx hw
  cases hxw : x.run w with
  | ok a w' =>
      rw [hxw] at h
      rw [bind_ok hxw]
      exact (hf a w' (h.1.sound hw) h.1.reach h.2 (h.1.sound hw)).trans h.1
  | error e w' =>
      rw [hxw] at h
      rw [bind_error hxw]
      exact h

/-- An operation that gives its value at once. -/
theorem reads {a : α} (hx : x.run w = .ok a w) (h : Runs A w (f a) R) : Runs A w (x >>= f) R := by
  intro hw
  rw [bind_ok hx]
  exact h hw

/-- An operation that gives its value with a change that counts only together with the next. -/
theorem draws {a : α} {w₁ : Workspace} (hx : x.run w = .ok a w₁)
    (h : w.Sound → Leads A w R ((f a).run w₁)) : Runs A w (x >>= f) R := by
  intro hw
  rw [bind_ok hx]
  exact h hw

theorem reader (hx : Reader x) (h : ∀ a, x.run w = .ok a w → Runs A w (f a) R) :
    Runs A w (x >>= f) R := by
  rcases hx.out w with ⟨a, ha⟩ | ⟨e, he⟩
  · exact reads ha (h a ha)
  · intro _
    rw [bind_error he]
    exact .refl w

/-- A fault ends the operation, a value goes on. -/
theorem lift {g : ε → Failure} {r : Except ε α} (h : ∀ a, r = .ok a → Runs A w (f a) R) :
    Runs A w (Op.lift g r >>= f) R := by
  cases r with
  | ok a => exact reads rfl (h a rfl)
  | error e => exact fun _ => .refl w

theorem of_reader (hx : Reader x) (h : ∀ a, x.run w = .ok a w → Q a w) : Runs A w x Q := by
  intro _
  rcases hx.out w with ⟨a, ha⟩ | ⟨e, he⟩
  · rw [ha]; exact ⟨.refl w, h a ha⟩
  · rw [he]; exact .refl w

/-- What an operation gives is what it gives. -/
theorem and_run (h : Runs A w x Q) : Runs A w x fun a w' => x.run w = .ok a w' ∧ Q a w' := by
  intro hw
  have hr := h hw
  cases hx : x.run w with
  | ok a w' => rw [hx] at hr; exact ⟨hr.1, rfl, hr.2⟩
  | error e w' => rw [hx] at hr; exact hr

theorem weaken (h : Runs A w x Q) (hQ : ∀ a w', Reach A w w' → Q a w' → Q' a w') :
    Runs A w x Q' :=
  fun hw => (h hw).weaken hQ

theorem mono (hAB : ∀ e, A e → B e) (h : Runs A w x Q) : Runs B w x Q := by
  intro hw
  have hr := h hw
  cases hxw : x.run w with
  | ok a w' => rw [hxw] at hr; exact ⟨hr.1.mono hAB, hr.2⟩
  | error e w' => rw [hxw] at hr; exact Way.mono hAB hr

theorem map {g : α → β} (h : Runs A w x fun a w' => R (g a) w') : Runs A w (g <$> x) R := by
  rw [← bind_pure_comp]
  exact bind h fun a w' _ _ hR => pure hR

theorem ite {c : Prop} [Decidable c] {x y : Op α} (hx : c → Runs A w x Q)
    (hy : ¬ c → Runs A w y Q) : Runs A w (if c then x else y) Q := by
  split
  · exact hx ‹_›
  · exact hy ‹_›

theorem tryCatch {h : Failure → Op α} (hx : Runs A w x Q)
    (hh : ∀ e w', w'.Sound → Reach A w w' → Runs A w' (h e) Q) :
    Runs A w (MonadExcept.tryCatch x h) Q := by
  intro hw
  have hr := hx hw
  cases hxw : x.run w with
  | ok a w' =>
      rw [hxw] at hr
      rw [tryCatch_ok hxw]
      exact hr
  | error e w' =>
      rw [hxw] at hr
      rw [tryCatch_error hxw]
      exact (hh e w' (Way.sound hr hw) hr.reach (Way.sound hr hw)).trans hr

/-- A loop makes the changes that its steps make, and keeps what every step keeps. -/
theorem forIn_keep {l : List β} {body : β → PUnit → Op (ForInStep PUnit)} {I : Workspace → Prop}
    (h : ∀ b ∈ l, ∀ w', w'.Sound → Reach A w w' → I w' →
      Runs A w' (body b ⟨⟩) fun s w'' => s = .yield ⟨⟩ ∧ I w'') (hI : I w) :
    Runs A w (ForIn.forIn l PUnit.unit body) fun _ => I := by
  induction l generalizing w with
  | nil => exact pure hI
  | cons b l ih =>
      rw [List.forIn_cons]
      intro hw
      refine bind (h b (.head _) w hw (.refl w) hI) (fun s w' _ hr hs => ?_) hw
      obtain ⟨rfl, hI⟩ := hs
      exact ih (fun c hc w'' hw'' hr' => h c (.tail _ hc) w'' hw'' (hr.trans hr')) hI

theorem forIn {l : List β} {body : β → PUnit → Op (ForInStep PUnit)}
    (h : ∀ b ∈ l, ∀ w', w'.Sound → Reach A w w' →
      Runs A w' (body b ⟨⟩) fun s _ => s = .yield ⟨⟩) :
    Runs A w (ForIn.forIn l PUnit.unit body) fun _ _ => True :=
  forIn_keep (fun b hb w' hw' hr _ => (h b hb w' hw' hr).weaken fun _ _ _ hs => ⟨hs, trivial⟩)
    trivial

/-- An operation on every item of a list, where what holds of a value that is given lasts. -/
theorem mapM {l : List β} {g : β → Op α} {Q : β → α → Workspace → Prop}
    (h : ∀ b ∈ l, ∀ w', w'.Sound → Reach A w w' → Runs A w' (g b) (Q b))
    (hQ : ∀ b ∈ l, ∀ {a w w'}, Reach A w w' → Q b a w → Q b a w') :
    Runs A w (l.mapM g) fun as w' => ∀ a ∈ as, ∃ b ∈ l, Q b a w' := by
  induction l generalizing w with
  | nil => exact pure fun _ h => nomatch h
  | cons b l ih =>
      rw [List.mapM_cons]
      intro hw
      refine bind (h b (.head _) w hw (.refl w)) (fun a w' _ hr ha => ?_) hw
      have htail := ih (w := w') (fun c hc w'' hw'' hr' => h c (.tail _ hc) w'' hw'' (hr.trans hr'))
        (fun c hc => hQ c (.tail _ hc))
      refine bind htail fun as w'' _ hr' has => pure fun c hc => ?_
      rcases List.mem_cons.mp hc with rfl | hc
      · exact ⟨b, .head _, hQ b (.head _) hr' ha⟩
      · obtain ⟨d, hd, hq⟩ := has c hc
        exact ⟨d, .tail _ hd, hq⟩

/-- An operation on every item of a list keeps what every single one keeps. -/
theorem mapM_keep {l : List β} {g : β → Op α} {I : Workspace → Prop}
    (h : ∀ b ∈ l, ∀ w', w'.Sound → Reach A w w' → I w' → Runs A w' (g b) fun _ => I) (hI : I w) :
    Runs A w (l.mapM g) fun _ => I := by
  induction l generalizing w with
  | nil => exact pure hI
  | cons b l ih =>
      rw [List.mapM_cons]
      intro hw
      refine bind (h b (.head _) w hw (.refl w) hI) (fun a w' _ hr hI => ?_) hw
      exact (ih (fun c hc w'' hw'' hr' => h c (.tail _ hc) w'' hw'' (hr.trans hr')) hI).bind
        fun _ _ _ _ hI => pure hI

/-- A loop keeps what holds of the items so far. -/
theorem forIn_fold {l : List β} {body : β → PUnit → Op (ForInStep PUnit)}
    {J : List β → Workspace → Prop}
    (h : ∀ bs b, bs ++ [b] <+: l → ∀ w', w'.Sound → Reach A w w' → J bs w' →
      Runs A w' (body b ⟨⟩) fun s w'' => s = .yield ⟨⟩ ∧ J (bs ++ [b]) w'') (hJ : J [] w) :
    Runs A w (ForIn.forIn l PUnit.unit body) fun _ => J l := by
  have go (rest bs : List β) (hl : bs ++ rest = l) {v : Workspace} (hr : Reach A w v) (hJ : J bs v) :
      Runs A v (ForIn.forIn rest PUnit.unit body) fun _ => J l := by
    induction rest generalizing bs v with
    | nil =>
        rw [List.append_nil] at hl
        exact .pure (hl ▸ hJ)
    | cons b rest ih =>
        have hl : bs ++ [b] ++ rest = l := by rw [← hl, List.append_assoc]; rfl
        rw [List.forIn_cons]
        intro hv
        refine Runs.bind (h bs b ⟨rest, hl⟩ v hv hr hJ) (fun s v' _ hr' hs => ?_) hv
        obtain ⟨rfl, hJ⟩ := hs
        exact ih (bs ++ [b]) hl (hr.trans hr') hJ
  exact go l [] rfl (.refl w) hJ

/-- An operation on every item of a list keeps what holds of the items and the values so far. -/
theorem mapM_fold {l : List β} {g : β → Op α} {J : List β → List α → Workspace → Prop}
    (h : ∀ bs as b, bs ++ [b] <+: l → ∀ w', w'.Sound → Reach A w w' → J bs as w' →
      Runs A w' (g b) fun a => J (bs ++ [b]) (as ++ [a])) (hJ : J [] [] w) :
    Runs A w (l.mapM g) fun as => J l as := by
  have go (rest bs : List β) (as : List α) (hl : bs ++ rest = l) {v : Workspace} (hr : Reach A w v)
      (hJ : J bs as v) : Runs A v (rest.mapM g) fun as' => J l (as ++ as') := by
    induction rest generalizing bs as v with
    | nil =>
        rw [List.append_nil] at hl
        exact .pure (by rwa [← hl, List.reverse_nil, List.append_nil])
    | cons b rest ih =>
        have hl : bs ++ [b] ++ rest = l := by rw [← hl, List.append_assoc]; rfl
        rw [List.mapM_cons]
        intro hv
        refine Runs.bind (h bs as b ⟨rest, hl⟩ v hv hr hJ) (fun a v' _ hr' hJ => ?_) hv
        refine Runs.bind (ih (bs ++ [b]) (as ++ [a]) hl (hr.trans hr') hJ) fun as' _ _ _ hJ => .pure ?_
        rwa [List.append_assoc] at hJ
  exact go l [] [] rfl (.refl w) hJ

end Runs

variable {R : Regime}

/-- The operation makes only changes of a class, wherever its condition holds. -/
structure Safe (R : Regime) (x : Op α) : Prop where
  /-- What the operation does from a workspace. -/
  runs : ∀ w, R.holds w → Runs R.admits w x fun _ _ => True

namespace Safe

variable {x : Op α} {f : α → Op β}

theorem of_runs {Q : Workspace → α → Workspace → Prop}
    (h : ∀ w, R.holds w → Runs R.admits w x (Q w)) : Safe R x :=
  ⟨fun w hI => (h w hI).weaken fun _ _ _ _ => trivial⟩

/-- What is safe anywhere is safe in a regime that admits all. -/
theorem of_any (hR : ∀ e, R.admits e) (hx : Safe .any x) : Safe R x :=
  ⟨fun w _ => (hx.runs w trivial).mono fun e _ => hR e⟩

theorem pure (a : α) : Safe R (Pure.pure a) := ⟨fun _ _ => .pure trivial⟩

theorem throw (e : Failure) : Safe R (MonadExcept.throw e : Op α) := ⟨fun _ _ => .throw e⟩

/-- A safe operation after changes of the class. -/
theorem runs_after (hx : Safe R x) {w' : Workspace} (hw : w.Sound) (hI : R.holds w)
    (hr : Reach R.admits w w') : Runs R.admits w' x fun _ _ => True :=
  hx.runs w' (R.lasts hw hr hI)

/-- A safe operation after one of which more is known. -/
theorem bind_runs {Q : Workspace → α → Workspace → Prop}
    (hx : ∀ w, R.holds w → Runs R.admits w x (Q w))
    (hf : ∀ w a w', w'.Sound → R.holds w' → Q w a w' → Runs R.admits w' (f a) fun _ _ => True) :
    Safe R (x >>= f) :=
  ⟨fun w hI hw => ((hx w hI).bind fun a w' hw' hr hq =>
    hf w a w' hw' (R.lasts hw hr hI) hq) hw⟩

theorem bind (hx : Safe R x) (hf : ∀ a, Safe R (f a)) : Safe R (x >>= f) :=
  bind_runs hx.runs fun _ a w' _ hI _ => (hf a).runs w' hI

theorem of_reader (hx : Reader x) : Safe R x := ⟨fun _ _ => .of_reader hx fun _ _ => trivial⟩

theorem reader (hx : Reader x) (hf : ∀ a, Safe R (f a)) : Safe R (x >>= f) :=
  (of_reader hx).bind hf

/-- An operation on what a reader gives, where it is known from where it was read. -/
theorem reads (hx : Reader x) (hf : ∀ w a, R.holds w → x.run w = .ok a w →
    Runs R.admits w (f a) fun _ _ => True) : Safe R (x >>= f) :=
  ⟨fun w hI => .reader hx fun a ha => hf w a hI ha⟩

theorem lift {g : ε → Failure} (r : Except ε α) (hf : ∀ a, Safe R (f a)) :
    Safe R (Op.lift g r >>= f) :=
  reader (.lift g r) hf

theorem ite {c : Prop} [Decidable c] {x y : Op α} (hx : Safe R x) (hy : Safe R y) :
    Safe R (if c then x else y) := by
  split
  · exact hx
  · exact hy

theorem map {g : α → β} (hx : Safe R x) : Safe R (g <$> x) :=
  ⟨fun w hI => (hx.runs w hI).map⟩

theorem tryCatch {h : Failure → Op α} (hx : Safe R x) (hh : ∀ e, Safe R (h e)) :
    Safe R (MonadExcept.tryCatch x h) :=
  ⟨fun w hI hw => ((hx.runs w hI).tryCatch fun e _ _ hr => (hh e).runs_after hw hI hr) hw⟩

end Safe

/-- The step of a loop makes only changes of a class, and the loop goes on after it. -/
structure Goes (R : Regime) (x : Op (ForInStep PUnit)) : Prop where
  /-- What the step does from a workspace. -/
  runs : ∀ w, R.holds w → Runs R.admits w x fun s _ => s = .yield ⟨⟩

namespace Goes

theorem on : Goes R (pure (.yield ⟨⟩)) := ⟨fun _ _ => .pure rfl⟩

theorem bind {x : Op α} {f : α → Op (ForInStep PUnit)} (hx : Safe R x) (hf : ∀ a, Goes R (f a)) :
    Goes R (x >>= f) :=
  ⟨fun w hI hw => ((hx.runs w hI).bind fun a w' _ hr _ =>
    (hf a).runs w' (R.lasts hw hr hI)) hw⟩

theorem ite {c : Prop} [Decidable c] {x y : Op (ForInStep PUnit)} (hx : Goes R x)
    (hy : Goes R y) : Goes R (if c then x else y) := by
  split
  · exact hx
  · exact hy

/-- A step that is one operation. -/
theorem once {x : Op α} (hx : Safe R x) : Goes R (x >>= fun _ => pure (.yield ⟨⟩)) :=
  bind hx fun _ => on

end Goes

theorem Safe.forIn {l : List β} {body : β → PUnit → Op (ForInStep PUnit)}
    (h : ∀ b ∈ l, Goes R (body b ⟨⟩)) : Safe R (ForIn.forIn l PUnit.unit body) :=
  ⟨fun _ hI hw => (Runs.forIn fun b hb w' _ hr => (h b hb).runs w' (R.lasts hw hr hI)) hw⟩

/-! ## Elementary operations -/

theorem runs_notify (n : Notice) : Runs A w (notify n) fun _ w' => w'.tables = w.tables :=
  fun _ => ⟨.quiet (e := .notice) trivial (.notice w n) rfl rfl, rfl⟩

theorem runs_makeDirs (p : Path) :
    Runs A w (makeDirs p) fun _ w' => ∃ t, w.files.makeDirs p = .ok t ∧ w' = { w with files := t } :=
  .reads rfl <| .lift fun t ht _ =>
    ⟨.quiet (e := .makeDirs) trivial (.makeDirs ht) rfl rfl, t, ht, rfl⟩

/-- A file is written only if its text differs. -/
theorem runs_writeIfChanged {p : Path} {text : String} (hA : A (.write p text)) :
    Runs A w (writeIfChanged p text) fun _ w' => w'.tables = w.tables := by
  have write (same : Bool) : Runs A w
      (if same then return false
        else do
          makeDirs p.parent
          setFiles (← lift .file ((← files).write p (FileTree.textContent text)))
          return true)
      fun _ w' => w'.tables = w.tables := by
    refine .ite (fun _ => .pure rfl) fun _ => ?_
    refine (runs_makeDirs _).bind fun _ w' _ _ h => ?_
    obtain ⟨_, _, rfl⟩ := h
    exact .reads rfl <| .lift fun t ht _ => ⟨.single (.inr hA) (.write ht) rfl rfl, rfl⟩
  refine .reader (reader_isFile p) fun b _ => .ite (fun _ => ?_) fun _ => ?_
  · exact .reader (reader_readText p) fun _ _ => .reads rfl (write _)
  · exact .reads rfl (write _)

theorem runs_removeFile {p : Path} (hA : A (.remove p)) (hp : w.files.isFile p = true) :
    Runs A w (setFiles (w.files.removeFile p)) fun _ w' => w'.tables = w.tables :=
  fun _ => ⟨.single (.inr hA) (.remove hp) rfl rfl, rfl⟩

/-- The document is written without a change of the tables. -/
theorem runs_save : Runs A w save fun _ w' => w'.tables = w.tables := by
  refine .reads rfl <| (runs_makeDirs _).bind fun _ w' _ _ h => ?_
  obtain ⟨_, _, rfl⟩ := h
  exact .reads rfl <| .lift fun t ht _ =>
    ⟨⟨.quiet (e := .save) trivial (.save ht), rfl, fun _ hu => nomatch hu⟩, rfl⟩

theorem unsaved_of_save {w' : Workspace} {u : Unit} (h : save.run w = .ok u w') :
    w'.graph.unsaved = false := by
  obtain ⟨w₁, _, -, h⟩ := bind_eq_ok.mp h
  obtain ⟨_, _, -, h⟩ := bind_eq_ok.mp h
  obtain ⟨_, _, -, h⟩ := bind_eq_ok.mp h
  obtain ⟨_, _, -, h⟩ := bind_eq_ok.mp h
  obtain ⟨_, _, -, h⟩ := bind_eq_ok.mp h
  cases h
  rfl

/-- Whatever was changed before, after an attempt to write the document nothing is left to write, or
it cannot be written. -/
theorem leads_save {w₀ : Workspace} (h : Reach A w₀ w) (hd : w.graph.depth = w₀.graph.depth)
    (hw : w₀.Sound) : Leads A w₀ (fun _ w' => Reach Event.None w w') (save.run w) := by
  have hs := runs_save (A := Event.None) (h.sound hw)
  cases hx : save.run w with
  | ok u w' =>
      rw [hx] at hs
      refine ⟨⟨h.trans hs.1.reach.of_quiet, hs.1.depth.trans hd, fun _ hu => ?_⟩, hs.1.reach⟩
      rw [unsaved_of_save hx] at hu
      cases hu
  | error e w' =>
      rw [hx] at hs
      have hn : ¬ w.Writable := fun ⟨_, hw'⟩ => by rw [hx] at hw'; cases hw'
      exact ⟨h.trans hs.reach.of_quiet, hs.depth.trans hd,
        fun _ _ => .inr ⟨w, h, hs.reach.of_quiet, hn⟩⟩

/-- Changed tables are written at once unless a transaction is open. -/
theorem commit_eq (t : Tables) (w : Workspace) :
    (commit t).run w = if w.graph.depth = 0 then save.run (w.withTables t) else .ok ⟨⟩ (w.withTables t) := by
  change (if w.graph.depth == 0 then save else pure ⟨⟩ : Op Unit) (w.withTables t) = _
  by_cases h : w.graph.depth = 0
  · rw [if_pos h, h]; rfl
  · rw [if_neg h, if_neg (by simpa using h)]; rfl

/-- Changed tables are put in place, whether they can be written or not. -/
theorem commit_reach {w₀ : Workspace} {t : Tables} (h : Reach A w₀ (w.withTables t))
    (hd : w.graph.depth = w₀.graph.depth) (hw : w₀.Sound) :
    Leads A w₀ (fun _ w' => w'.tables = t) ((commit t).run w) := by
  rw [commit_eq]
  split
  · exact (leads_save h hd hw).weaken fun _ _ _ hq => hq.tables_of_quiet
  · rename_i hne
    exact ⟨⟨h, hd, fun h₀ => absurd h₀ hne⟩, rfl⟩

/-! ## Transactions -/

/-- The end of the outermost transaction writes what has changed. -/
theorem endTransaction_eq (w : Workspace) :
    endTransaction.run w =
      if w.graph.depth - 1 = 0 ∧ w.graph.unsaved = true then save.run (w.atDepth (w.graph.depth - 1))
      else .ok ⟨⟩ (w.atDepth (w.graph.depth - 1)) := by
  change (if w.graph.depth - 1 == 0 && w.graph.unsaved then save else pure ⟨⟩ : Op Unit)
    (w.atDepth (w.graph.depth - 1)) = _
  by_cases h : w.graph.depth - 1 = 0 ∧ w.graph.unsaved = true
  · rw [if_pos h, if_pos (by simpa using h)]; rfl
  · rw [if_neg h, if_neg (by simpa using h)]; rfl

/-- A transaction ends also when the operation in it fails. -/
theorem transaction_eq (x : Op α) (w : Workspace) :
    (transaction x).run w =
      match x.run (w.atDepth (w.graph.depth + 1)) with
      | .ok a w => match endTransaction.run w with
        | .ok _ w => .ok a w
        | .error e w => .error e w
      | .error e w => match endTransaction.run w with
        | .ok _ w => .error e w
        | .error e w => .error e w := by
  refine (bind_ok rfl).trans ((tryFinally_eq x endTransaction
    (w.atDepth (w.graph.depth + 1))).trans ?_)
  cases x.run (w.atDepth (w.graph.depth + 1)) with
  | ok a w' => dsimp only; cases endTransaction.run w' <;> rfl
  | error e w' => dsimp only; cases endTransaction.run w' <;> rfl

theorem after_transaction (x : Op α) (w : Workspace) :
    (transaction x).after w = endTransaction.after (x.after (w.atDepth (w.graph.depth + 1))) := by
  unfold after
  rw [transaction_eq]
  cases x.run (w.atDepth (w.graph.depth + 1)) with
  | ok a w' => dsimp only; cases endTransaction.run w' <;> rfl
  | error e w' => dsimp only; cases endTransaction.run w' <;> rfl

/-- The end of a transaction makes only quiet changes. -/
theorem reach_endTransaction (hw : w.Sound) : Reach A w (endTransaction.after w) := by
  have h : Reach A w (w.atDepth (w.graph.depth - 1)) := .quiet (e := .depth) trivial (.depth w _)
  unfold after
  rw [endTransaction_eq]
  by_cases hc : w.graph.depth - 1 = 0 ∧ w.graph.unsaved = true
  · rw [if_pos hc]
    exact h.trans (runs_save.after (h.sound hw))
  · rw [if_neg hc]
    exact h

/-- An operation in a transaction is a whole one with the end of the transaction. -/
theorem leads_endTransaction {w₀ : Workspace} (h : Reach A w₀ w)
    (hd : w.graph.depth = w₀.graph.depth + 1) (hw : w₀.Sound) :
    Leads A w₀ (fun _ w' => Reach Event.None w w') (endTransaction.run w) := by
  have hdown (B : Event → Prop) : Reach B w (w.atDepth (w.graph.depth - 1)) :=
    .quiet (e := .depth) trivial (.depth w _)
  have hd' : (w.atDepth (w.graph.depth - 1)).graph.depth = w₀.graph.depth :=
    Nat.sub_eq_of_eq_add hd
  rw [endTransaction_eq]
  split
  · exact (leads_save (h.trans (hdown A)) hd' hw).weaken fun _ _ _ hq => (hdown _).trans hq
  · rename_i hc
    exact ⟨⟨h.trans (hdown A), hd', fun h₀ hu => absurd ⟨h₀, hu⟩ hc⟩, hdown _⟩

/-- The condition holds on after quiet changes. -/
def Calm (Q : α → Workspace → Prop) : Prop :=
  ∀ {a w w'}, Reach Event.None w w' → Q a w → Q a w'

/-- An operation does in a transaction what it does without. -/
theorem Runs.transaction {x : Op α} {Q : α → Workspace → Prop} (hQ : Calm Q)
    (hx : ∀ w', w'.Sound → w'.tables = w.tables → Reach Event.None w w' → Runs A w' x Q) :
    Runs A w (Op.transaction x) Q := by
  intro hw
  have h (B : Event → Prop) : Reach B w (w.atDepth (w.graph.depth + 1)) :=
    .quiet (e := .depth) trivial (.depth w _)
  have hw₁ := (h A).sound hw
  have hr := hx _ hw₁ rfl (h _) hw₁
  rw [transaction_eq]
  cases hxw : x.run (w.atDepth (w.graph.depth + 1)) with
  | ok a w' =>
      rw [hxw] at hr
      have hend := leads_endTransaction ((h A).trans hr.1.reach) hr.1.depth hw
      cases hew : endTransaction.run w' with
      | ok b w'' =>
          rw [hew] at hend
          simp only [hew]
          exact ⟨hend.1, hQ hend.2 hr.2⟩
      | error e w'' =>
          rw [hew] at hend
          simp only [hew]
          exact hend
  | error e w' =>
      rw [hxw] at hr
      have hend := leads_endTransaction ((h A).trans hr.reach) hr.depth hw
      cases hew : endTransaction.run w' with
      | ok b w'' =>
          rw [hew] at hend
          simp only [hew]
          exact hend.1
      | error e w'' =>
          rw [hew] at hend
          simp only [hew]
          exact hend

theorem Safe.transaction {x : Op α} (hx : Safe R x) : Safe R (Op.transaction x) :=
  ⟨fun _ hI hw => (Runs.transaction (fun _ _ => trivial) fun _ _ _ hr =>
    hx.runs_after hw hI hr.of_quiet) hw⟩

end Op

end IntentBuild
