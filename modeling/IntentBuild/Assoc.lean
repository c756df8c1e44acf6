/-!
# Ordered maps

An ordered map is a list of entries with one entry for each key.  The entries stand in the order
in which their keys were first set.  `get?_set_same` and `get?_set_other` say what setting a key
does to the values of all keys.
-/

namespace IntentBuild.Assoc

variable {κ α : Type} [DecidableEq κ]

/-- The value at a key. -/
def get? (k : κ) : List (κ × α) → Option α
  | [] => none
  | (k', v) :: rest => if k' = k then some v else get? k rest

/-- Sets the value at a key.  A new key goes to the end. -/
def set (k : κ) (v : α) : List (κ × α) → List (κ × α)
  | [] => [(k, v)]
  | (k', v') :: rest => if k' = k then (k', v) :: rest else (k', v') :: set k v rest

/-- Removes a key. -/
def erase (k : κ) (m : List (κ × α)) : List (κ × α) :=
  m.filter fun e => e.1 ≠ k

/-- The map with the given entries.  A repeated key keeps its first place and takes its last
value. -/
def ofEntries (es : List (κ × α)) : List (κ × α) :=
  es.foldl (fun m e => set e.1 e.2 m) []

/-- The map has the key. -/
def has (k : κ) (m : List (κ × α)) : Bool := (get? k m).isSome

/-- Two maps have the same keys with equal values, in any order. -/
def same [DecidableEq α] (a b : List (κ × α)) : Bool :=
  a.length == b.length && a.all fun e => get? e.1 b == some e.2

@[simp] theorem get?_nil (k : κ) : get? k ([] : List (κ × α)) = none := rfl

theorem get?_set_same (k : κ) (v : α) (m : List (κ × α)) : get? k (set k v m) = some v := by
  induction m with
  | nil => simp [set, get?]
  | cons e m ih =>
      obtain ⟨k', v'⟩ := e
      by_cases h : k' = k <;> simp [set, get?, h, ih]

theorem get?_set_other {k k' : κ} (h : k' ≠ k) (v : α) (m : List (κ × α)) :
    get? k' (set k v m) = get? k' m := by
  induction m with
  | nil => simp [set, get?, Ne.symm h]
  | cons e m ih =>
      obtain ⟨k'', v'⟩ := e
      by_cases hk : k'' = k
      · subst hk; simp [set, get?, Ne.symm h]
      · by_cases hk' : k'' = k'
        · subst hk'; simp [set, get?, hk]
        · simp [set, get?, hk, hk', ih]

end IntentBuild.Assoc
