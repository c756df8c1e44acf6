import IntentBuild.Schema.Reading

/-!
# What is read can be written and read again

A reader and a writer of values fit when every value that was read, in whatever form it was given, is
read again from what is written for it (`Json.Read.Stable`).  The readers of lists, maps and fields fit
their writers when the readers of their parts do.
-/

namespace IntentBuild

/-! ## Readings that succeed -/

namespace Reading

variable {α β : Type}

theorem map_eq_ok {f : α → β} {x : Reading α} {b : β} :
    f <$> x = .ok b ↔ ∃ a, x = .ok a ∧ f a = b := by
  cases x with
  | ok a => exact ⟨fun h => ⟨a, rfl, ok.inj h⟩, fun ⟨_, ha, hb⟩ => by cases ha; exact congrArg ok hb⟩
  | bad is => exact ⟨nofun, fun ⟨_, ha, _⟩ => nomatch ha⟩

theorem seq_eq_ok {f : Reading (α → β)} {x : Reading α} {b : β} :
    f <*> x = .ok b ↔ ∃ g, f = .ok g ∧ ∃ a, x = .ok a ∧ g a = b := by
  cases f with
  | ok g =>
      cases x with
      | ok a =>
          exact ⟨fun h => ⟨g, rfl, a, rfl, ok.inj h⟩,
            fun ⟨_, hg, _, ha, hb⟩ => by cases hg; cases ha; exact congrArg ok hb⟩
      | bad is => exact ⟨nofun, fun ⟨_, _, _, ha, _⟩ => nomatch ha⟩
  | bad is => cases x <;> exact ⟨nofun, fun ⟨_, hg, _⟩ => nomatch hg⟩

@[simp] theorem map_ok (f : α → β) (a : α) : f <$> Reading.ok a = .ok (f a) := rfl

@[simp] theorem ok_seq_ok (f : α → β) (a : α) : Reading.ok f <*> Reading.ok a = .ok (f a) := rfl

@[simp] theorem under_ok (s : Step) (a : α) : (Reading.ok a).under s = .ok a := rfl

theorem under_eq_ok {s : Step} {x : Reading α} {a : α} : x.under s = .ok a ↔ x = .ok a := by
  cases x <;> simp [under]

theorem andThen_eq_ok {x : Reading α} {f : α → Reading β} {b : β} :
    x.andThen f = .ok b ↔ ∃ a, x = .ok a ∧ f a = .ok b := by
  cases x <;> simp [andThen]

theorem rule_eq_ok {holds : Bool} {text : String} {a a' : α} :
    rule holds text a = .ok a' ↔ holds = true ∧ a = a' := by
  cases holds <;> simp [rule, issue]

theorem validated_eq_ok {schema : String} {x : Reading α} {a : α} :
    x.validated schema = .ok a ↔ x = .ok a := by
  cases x <;> simp [validated]

end Reading

namespace Json.Read

variable {α : Type} {read : Json → Reading α} {write : α → Json}

/-- What is read is read again from what is written for it. -/
def Stable (read : Json → Reading α) (write : α → Json) : Prop :=
  ∀ ⦃v a⦄, read v = .ok a → read (write a) = .ok a

theorem stable_text : Stable text .str := fun _ _ _ => rfl

theorem stable_integer : Stable integer .int := fun _ _ _ => rfl

theorem stable_nonempty : Stable nonempty .str := by
  intro v s h
  obtain ⟨t, -, ht⟩ := Reading.andThen_eq_ok.mp h
  split at ht
  · cases ht
  · rename_i hne
    cases ht
    exact if_neg hne

theorem stable_word {ofText? : String → Option α} {text : α → String}
    (h : ∀ a, ofText? (text a) = some a) : Stable (word ofText?) fun a => .str (text a) := by
  intro v a _
  rw [word, h a]

/-! ## Values that may be absent -/

/-- The value, or `null` for nothing. -/
def writeOptional (write : α → Json) (a : Option α) : Json := a.elim .null write

theorem stable_optional (h : Stable read write) (hnull : ∀ a, write a ≠ .null) :
    Stable (optional read) (writeOptional write) := by
  intro v a hv
  cases a with
  | none => rfl
  | some a =>
      have hread : read (write a) = .ok a := by
        unfold optional at hv
        split at hv
        · cases hv
        · obtain ⟨b, hb, he⟩ := Reading.map_eq_ok.mp hv
          cases he
          exact h hb
      show optional read (write a) = .ok (some a)
      unfold optional
      split
      · rename_i he
        exact absurd he (hnull a)
      · rw [hread, Reading.map_ok]

theorem writeOptional_str : writeOptional Json.str = Json.ofText? :=
  funext fun a => by cases a <;> rfl

theorem writeOptional_int : writeOptional Json.int = Json.ofInt? :=
  funext fun a => by cases a <;> rfl

theorem stable_optionalText : Stable (optional text) Json.ofText? :=
  writeOptional_str ▸ stable_optional stable_text nofun

theorem stable_optionalInteger : Stable (optional integer) Json.ofInt? :=
  writeOptional_int ▸ stable_optional stable_integer nofun

/-! ## Lists and maps -/

theorem itemsFrom_write (h : Stable read write) {n : Nat} {vs : List Json} {as : List α}
    (hvs : itemsFrom read n vs = .ok as) (m : Nat) : itemsFrom read m (as.map write) = .ok as := by
  induction vs generalizing n m as with
  | nil =>
      cases hvs
      rfl
  | cons v vs ih =>
      obtain ⟨_, hcons, rest, hrest, rfl⟩ := Reading.seq_eq_ok.mp hvs
      obtain ⟨a, ha, rfl⟩ := Reading.map_eq_ok.mp hcons
      rw [List.map_cons, itemsFrom, h (Reading.under_eq_ok.mp ha), ih hrest]
      rfl

theorem stable_list (h : Stable read write) : Stable (list read) fun as => .arr (as.map write) := by
  intro v as hv
  unfold list at hv
  split at hv
  · exact itemsFrom_write h hv 0
  · cases hv

theorem entries_write (h : Stable read write) {ms : Members} {m : List (String × α)}
    (hms : entries read ms = .ok m) :
    entries read (m.map fun e => (e.1, write e.2)) = .ok m := by
  induction ms generalizing m with
  | nil =>
      cases hms
      rfl
  | cons e ms ih =>
      obtain ⟨k, v⟩ := e
      obtain ⟨_, hcons, rest, hrest, rfl⟩ := Reading.seq_eq_ok.mp hms
      obtain ⟨entry, hentry, rfl⟩ := Reading.map_eq_ok.mp hcons
      obtain ⟨a, ha, rfl⟩ := Reading.map_eq_ok.mp hentry
      rw [List.map_cons, entries, h (Reading.under_eq_ok.mp ha), ih hrest]
      rfl

theorem stable_map (h : Stable read write) :
    Stable (map read) fun m => .obj (m.map fun e => (e.1, write e.2)) := by
  intro v m hv
  unfold map at hv
  split at hv
  · exact entries_write h hv
  · cases hv

/-! ## Records -/

theorem record_eq_ok {f : Members → Reading α} {v : Json} {a : α} :
    record f v = .ok a ↔ ∃ ms, v = .obj ms ∧ f ms = .ok a := by
  cases v <;> simp [record, Reading.issue]

/-- A required field that was read is read again from what is written for it. -/
theorem Stable.required2 (h : Stable read write) {ms : Members} {key other : String} {a : α}
    (ha : required2 ms key other read = .ok a) : read (write a) = .ok a := by
  unfold Read.required2 at ha
  split at ha
  · exact h (Reading.under_eq_ok.mp ha)
  · cases ha

/-- So is a field with a default, if the default is read from what is written for it. -/
theorem Stable.withDefault2 (h : Stable read write) {ms : Members} {key other : String} {d a : α}
    (hd : read (write d) = .ok d) (ha : withDefault2 ms key other d read = .ok a) :
    read (write a) = .ok a := by
  unfold Read.withDefault2 at ha
  split at ha
  · exact h (Reading.under_eq_ok.mp ha)
  · cases ha
    exact hd

/-- A field that is given under its first key. -/
theorem required2_of_get? {ms : Members} {key other : String} {v : Json} {a : α}
    (hv : Assoc.get? key ms = some v) (ha : read v = .ok a) :
    required2 ms key other read = .ok a := by
  rw [required2, fieldValue?, hv]
  simp only [ha, Reading.under_ok]

theorem withDefault2_of_get? {ms : Members} {key other : String} {v : Json} {a d : α}
    (hv : Assoc.get? key ms = some v) (ha : read v = .ok a) :
    withDefault2 ms key other d read = .ok a := by
  rw [withDefault2, fieldValue?, hv]
  simp only [ha, Reading.under_ok]

end Json.Read

end IntentBuild
