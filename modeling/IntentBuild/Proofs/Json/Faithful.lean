import IntentBuild.Proofs.Json.Alike
import IntentBuild.Proofs.Json.Canonical
import IntentBuild.Proofs.Json.RoundTrip

/-!
# The canonical text is exact

The canonical text of a plain value is read back as the value with its members in canonical order
(`readValue?_writeCanonical`), so it is the text of no other such value.  Together with the order of members
this says that two plain values have the same canonical text just when they are alike
(`Payload.canonical_eq_iff`).
-/

namespace IntentBuild.Json

open Assoc (Proper)

variable {cs row : List Char} {v : Json} {vs : List Json} {k : String} {ms : Members}

/-! ## Canonical texts of lists and objects -/

theorem writeCanonicalItems_cons : writeCanonicalItems (v :: vs) = .ok cs ↔
    ∃ first rest, writeCanonical v = .ok first ∧ writeCanonicalItems vs = .ok rest ∧
      ',' :: (first ++ rest) = cs := bind_bind_eq_ok

theorem writeCanonicalMembers_cons : writeCanonicalMembers ((k, v) :: ms) = .ok cs ↔
    ∃ first rest, writeCanonical v = .ok first ∧ writeCanonicalMembers ms = .ok rest ∧
      ',' :: (stringText false k ++ (':' :: (first ++ rest))) = cs := bind_bind_eq_ok

/-- The text of a list is the row of its items between brackets. -/
theorem writeCanonical_arr (h : writeCanonical (.arr (v :: vs)) = .ok cs) :
    ∃ row, writeCanonicalItems (v :: vs) = .ok (',' :: row) ∧ cs = '[' :: (row ++ [']']) := by
  obtain ⟨first, rest, hfirst, hrest, rfl⟩ := bind_bind_eq_ok.mp h
  exact ⟨first ++ rest, writeCanonicalItems_cons.mpr ⟨first, rest, hfirst, hrest, rfl⟩, by simp⟩

/-- The text of an object is the row of its members between braces. -/
theorem writeCanonical_obj (h : writeCanonical (.obj ((k, v) :: ms)) = .ok cs) :
    ∃ row, writeCanonicalMembers ((k, v) :: ms) = .ok (',' :: row) ∧ cs = '{' :: (row ++ ['}']) := by
  obtain ⟨first, rest, hfirst, hrest, rfl⟩ := bind_bind_eq_ok.mp h
  exact ⟨stringText false k ++ (':' :: (first ++ rest)),
    writeCanonicalMembers_cons.mpr ⟨first, rest, hfirst, hrest, rfl⟩, by simp⟩

/-- The items after the first begin with a comma, or there are none. -/
theorem writeCanonicalItems_cases (h : writeCanonicalItems vs = .ok cs) :
    vs = [] ∧ cs = [] ∨ ∃ row, cs = ',' :: row := by
  cases vs with
  | nil => cases h; exact .inl ⟨rfl, rfl⟩
  | cons v vs =>
      obtain ⟨first, rest, -, -, rfl⟩ := writeCanonicalItems_cons.mp h
      exact .inr ⟨_, rfl⟩

/-- The members after the first begin with a comma and a key, or there are none. -/
theorem writeCanonicalMembers_cases (h : writeCanonicalMembers ms = .ok cs) :
    ms = [] ∧ cs = [] ∨ ∃ row, cs = ',' :: '"' :: row := by
  cases ms with
  | nil => cases h; exact .inl ⟨rfl, rfl⟩
  | cons e ms =>
      obtain ⟨first, rest, -, -, rfl⟩ := writeCanonicalMembers_cons.mp h
      exact .inr ⟨_, rfl⟩

/-- The canonical text of a value begins with a character that is no blank and closes nothing. -/
theorem writeCanonical_eq_cons (hv : v.Plain) (h : writeCanonical v = .ok cs) :
    ∃ c cs', cs = c :: cs' ∧ c ∉ [' ', '\n', '\t', '\r', ']', '}'] := by
  cases v with
  | null => cases h; exact ⟨_, _, rfl, by decide⟩
  | bool b => cases h; cases b <;> exact ⟨_, _, rfl, by decide⟩
  | int i =>
      rw [writeCanonical] at h
      split at h
      · cases h
        obtain ⟨c, cs, hc, hdigit⟩ := ofInt_eq_cons i
        exact ⟨c, cs, hc, fun hm => not_mem_of_digit hdigit (List.mem_append_left ['{', '[', '"'] hm)⟩
      · cases h
  | float x => exact hv.elim
  | str s => cases h; exact ⟨_, _, rfl, by decide⟩
  | arr vs =>
      cases vs with
      | nil => cases h; exact ⟨_, _, rfl, by decide⟩
      | cons v vs =>
          obtain ⟨row, -, rfl⟩ := writeCanonical_arr h
          exact ⟨_, _, rfl, by decide⟩
  | obj ms =>
      cases ms with
      | nil => cases h; exact ⟨_, _, rfl, by decide⟩
      | cons e ms =>
          obtain ⟨row, -, rfl⟩ := writeCanonical_obj h
          exact ⟨_, _, rfl, by decide⟩

/-! ## Reading back -/

mutual

/-- A plain value is read back from its canonical text. -/
theorem readValue?_writeCanonical : ∀ {v : Json}, v.Plain → ∀ {cs : List Char},
    writeCanonical v = .ok cs → ∀ (fuel : Nat) {rest : List Char}, Ends rest → cs.length < fuel →
      readValue? fuel (cs ++ rest) = some (v, rest)
  | .null, _, _, h, fuel + 1, rest, _, _ => by
      cases h
      exact readValue?_word (by decide)
  | .bool b, _, _, h, fuel + 1, rest, _, _ => by
      cases h
      cases b <;> exact readValue?_word (by decide)
  | .int i, _, _, h, fuel + 1, rest, hr, _ => by
      rw [writeCanonical] at h
      split at h
      · cases h
        exact readValue?_ofInt i fuel hr
      · cases h
  | .str s, _, _, h, fuel + 1, rest, _, _ => by
      cases h
      exact readValue?_stringText false s fuel rest
  | .arr [], _, _, h, fuel + 1, rest, _, _ => by
      cases h
      rw [List.cons_append, readValue?]
      rfl
  | .arr (v :: vs), hv, _, h, fuel + 1, rest, _, hf => by
      obtain ⟨row, hrow, rfl⟩ := writeCanonical_arr h
      simp only [List.length_cons, List.length_append, List.length_nil] at hf
      have hitems := readItems?_writeCanonical (show PlainItems (v :: vs) from hv) hrow fuel rest (by omega)
      obtain ⟨first, more, hfirst, -, he⟩ := writeCanonicalItems_cons.mp hrow
      obtain ⟨c, cs, rfl, hn⟩ := writeCanonical_eq_cons hv.1 hfirst
      cases he
      simp only [List.mem_cons, List.not_mem_nil, or_false, not_or] at hn
      simp only [List.cons_append, List.append_assoc, List.nil_append] at hitems ⊢
      rw [readValue?, skipSpace_cons (by decide)]
      simp only [skipSpace_cons (show c ∉ [' ', '\n', '\t', '\r'] by simp [hn])]
      split
      · rename_i h
        exact absurd (List.cons.inj h).1 hn.2.2.2.2.1
      · rw [hitems]
        rfl
  | .obj [], _, _, h, fuel + 1, rest, _, _ => by
      cases h
      rw [List.cons_append, readValue?]
      rfl
  | .obj ((k, v) :: ms), hv, _, h, fuel + 1, rest, _, hf => by
      obtain ⟨row, hrow, rfl⟩ := writeCanonical_obj h
      simp only [List.length_cons, List.length_append, List.length_nil] at hf
      have hmembers := readMembers?_writeCanonical (show PlainMembers ((k, v) :: ms) from hv.2) hrow fuel
        rest (by omega)
      obtain ⟨first, more, -, -, he⟩ := writeCanonicalMembers_cons.mp hrow
      cases he
      simp only [stringText, List.cons_append, List.append_assoc, List.nil_append] at hmembers ⊢
      rw [readValue?, skipSpace_cons (by decide)]
      simp only [skipSpace_cons (show '"' ∉ [' ', '\n', '\t', '\r'] by decide)]
      split
      · rename_i h
        cases (List.cons.inj h).1
      · rw [hmembers, Option.map_some, Assoc.ofEntries_of_proper hv.1]

/-- Plain items are read back from their canonical texts. -/
theorem readItems?_writeCanonical : ∀ {vs : List Json}, PlainItems vs → ∀ {row : List Char},
    writeCanonicalItems vs = .ok (',' :: row) → ∀ (fuel : Nat) (rest : List Char),
      row.length + 1 < fuel → readItems? fuel (row ++ ']' :: rest) = some (vs, rest)
  | v :: vs, hv, _, h, fuel + 1, rest, hf => by
      obtain ⟨first, more, hfirst, hmore, he⟩ := writeCanonicalItems_cons.mp h
      cases he
      rw [List.length_append] at hf
      have value {after : List Char} (ha : Ends after) :
          readValue? fuel (first ++ after) = some (v, after) :=
        readValue?_writeCanonical hv.1 hfirst fuel ha (by omega)
      rw [readItems?, List.append_assoc]
      rcases writeCanonicalItems_cases hmore with ⟨rfl, rfl⟩ | ⟨row, rfl⟩
      · rw [List.nil_append, value (ends_cons (by decide) rest)]
        rfl
      · rw [List.length_cons] at hf
        have hitems := readItems?_writeCanonical hv.2 hmore fuel rest (by omega)
        rw [List.cons_append, value (ends_cons (by decide) _)]
        dsimp only
        rw [skipSpace_cons (by decide)]
        simp only [hitems, Option.map_some]

/-- Plain members are read back from their canonical texts. -/
theorem readMembers?_writeCanonical : ∀ {ms : Members}, PlainMembers ms → ∀ {row : List Char},
    writeCanonicalMembers ms = .ok (',' :: row) → ∀ (fuel : Nat) (rest : List Char),
      row.length + 1 < fuel → readMembers? fuel (row ++ '}' :: rest) = some (ms, rest)
  | (k, v) :: ms, hv, _, h, fuel + 1, rest, hf => by
      obtain ⟨first, more, hfirst, hmore, he⟩ := writeCanonicalMembers_cons.mp h
      cases he
      simp only [List.length_append, List.length_cons] at hf
      have value {after : List Char} (ha : Ends after) :
          readValue? fuel (first ++ after) = some (v, after) :=
        readValue?_writeCanonical hv.1 hfirst fuel ha (by omega)
      have comma (cs : List Char) : skipSpace (',' :: cs) = ',' :: cs := skipSpace_cons (by decide) cs
      simp only [stringText, List.cons_append, List.append_assoc, List.nil_append]
      rw [readMembers?, stringBody?_flatMap]
      dsimp only
      rw [skipSpace_cons (by decide)]
      rcases writeCanonicalMembers_cases hmore with ⟨rfl, rfl⟩ | ⟨row, rfl⟩
      · have close : skipSpace ('}' :: rest) = '}' :: rest := skipSpace_cons (by decide) rest
        simp only [List.nil_append, value (ends_cons (c := '}') (by decide) rest), close,
          String.ofList_toList]
      · rw [List.length_cons] at hf
        have hmembers := readMembers?_writeCanonical hv.2 hmore fuel rest (by omega)
        have quote (cs : List Char) : skipSpace ('"' :: cs) = '"' :: cs := skipSpace_cons (by decide) cs
        rw [List.cons_append] at hmembers
        simp only [List.cons_append, value (ends_cons (c := ',') (by decide) _), comma, quote, hmembers,
          Option.map_some, String.ofList_toList]

end

/-- A plain value is known from its canonical text. -/
theorem writeCanonical_injective {v w : Json} (hv : v.Plain) (hw : w.Plain)
    (h : writeCanonical v = .ok cs) (h' : writeCanonical w = .ok cs) : v = w := by
  have hread := readValue?_writeCanonical hv h (cs.length + 1) ends_nil (by omega)
  rw [readValue?_writeCanonical hw h' (cs.length + 1) ends_nil (by omega)] at hread
  cases hread
  rfl

/-! ## Sorted members -/

theorem plainMembers_iff {ms : Members} : PlainMembers ms ↔ ∀ e ∈ ms, e.2.Plain := by
  induction ms with
  | nil => simp [PlainMembers]
  | cons e ms ih => rw [PlainMembers, ih, List.forall_mem_cons]

mutual

/-- A plain value stays plain when its members are put in order. -/
theorem Plain.sortKeys (le : String → String → Bool) : ∀ {v : Json}, v.Plain → (v.sortKeys le).Plain
  | .null, _ | .bool _, _ | .int _, _ | .str _, _ => trivial
  | .float _, h => h.elim
  | .arr _, h => plainItems_sortKeys le h
  | .obj ms, h => by
      have hproper : Proper (sortKeysMembers le ms) := proper_sortKeysMembers h.1
      have hperm : (Sorting.sort (fun a b => le a.1 b.1) (sortKeysMembers le ms)).Perm
          (sortKeysMembers le ms) := Sorting.sort_perm _
      refine ⟨(hperm.map Prod.fst).nodup_iff.mpr hproper, plainMembers_iff.mpr fun e he => ?_⟩
      exact plainMembers_iff.mp (plainMembers_sortKeys le h.2) e (hperm.mem_iff.mp he)

theorem plainItems_sortKeys (le : String → String → Bool) :
    ∀ {vs : List Json}, PlainItems vs → PlainItems (sortKeysItems le vs)
  | [], _ => trivial
  | _ :: _, h => ⟨h.1.sortKeys le, plainItems_sortKeys le h.2⟩

theorem plainMembers_sortKeys (le : String → String → Bool) :
    ∀ {ms : Members}, PlainMembers ms → PlainMembers (sortKeysMembers le ms)
  | [], _ => trivial
  | (_, _) :: _, h => ⟨h.1.sortKeys le, plainMembers_sortKeys le h.2⟩

end

/-- A value within the range of the format has a canonical text, that of its form with members in order. -/
theorem canonical_eq_ok (h : v.Exact) :
    ∃ cs, v.canonical = .ok (String.ofList cs) ∧ writeCanonical (v.sortKeys Text.utf16Le) = .ok cs := by
  obtain ⟨cs, hcs⟩ := (writeCanonical_eq_ok _).mpr ((exact_sortKeys Text.utf16Le v).mpr h)
  exact ⟨cs, by rw [canonical, hcs]; rfl, hcs⟩

/-- The canonical text of a plain value is that of another one just when the two are alike. -/
theorem writeCanonical_sortKeys_eq_iff {w : Json} {ds : List Char} (hv : v.Plain) (hw : w.Plain)
    (h : writeCanonical (v.sortKeys Text.utf16Le) = .ok cs)
    (h' : writeCanonical (w.sortKeys Text.utf16Le) = .ok ds) : cs = ds ↔ v.Alike w := by
  rw [← sortKeys_eq_iff Text.isOrder_utf16Le hv.lossless.tidy hw.lossless.tidy]
  constructor
  · rintro rfl
    exact writeCanonical_injective (hv.sortKeys _) (hw.sortKeys _) h h'
  · intro he
    rw [he, h', Except.ok.injEq] at h
    exact h.symm

end IntentBuild.Json

namespace IntentBuild.Payload

variable {p q : Payload} {v w : Json}

/-- A payload has the canonical text of its JSON form. -/
theorem canonical_of_toJson {s : String} (hp : p.toJson = .ok v) (h : v.canonical = .ok s) :
    p.canonical = .ok s := by
  rw [canonical, hp]
  show v.canonical.mapError Fault.canonical = .ok s
  rw [h]
  rfl

/-- Payloads of null, truth values, integers within the range of the format, texts, lists and objects with
texts for keys have a canonical text, and they have the same one just when they are equal up to the order
of the members of their objects, at every depth. -/
theorem canonical_eq_iff (hp : p.toJson = .ok v) (hq : q.toJson = .ok w) (hv : v.Plain) (hw : w.Plain)
    (hv' : v.Exact) (hw' : w.Exact) :
    ∃ s t, p.canonical = .ok s ∧ q.canonical = .ok t ∧ (s = t ↔ v.Alike w) := by
  obtain ⟨cs, hs, hcs⟩ := Json.canonical_eq_ok hv'
  obtain ⟨ds, ht, hds⟩ := Json.canonical_eq_ok hw'
  refine ⟨_, _, canonical_of_toJson hp hs, canonical_of_toJson hq ht, ?_⟩
  rw [← Json.writeCanonical_sortKeys_eq_iff hv hw hcs hds]
  exact ⟨String.ofList_injective, congrArg String.ofList⟩

/-- A map with a list of maps. -/
def sampleMap : Payload :=
  .map [(.text "😀", .list [.map [(.text "b", .json .null), (.text "a", .json (.int (-1)))]]),
    (.text "\uffff", .json (.str "\"\\\x7f"))]

/-- The JSON form of the map. -/
def sampleForm : Json :=
  .obj [("😀", .arr [.obj [("b", .null), ("a", .int (-1))]]), ("\uffff", .str "\"\\\x7f")]

/-- The same object with its members in another order. -/
def sampleTurned : Json :=
  .obj [("\uffff", .str "\"\\\x7f"), ("😀", .arr [.obj [("a", .int (-1)), ("b", .null)]])]

/-- The map and the object in another order have the same canonical text. -/
theorem canonical_eq_iff_sample :
    ∃ s, sampleMap.canonical = .ok s ∧ (Payload.json sampleTurned).canonical = .ok s := by
  have hv : sampleForm.Plain := by
    simp [sampleForm, Json.Plain, Json.PlainItems, Json.PlainMembers, Assoc.Proper]
  have hw : sampleTurned.Plain := by
    simp [sampleTurned, Json.Plain, Json.PlainItems, Json.PlainMembers, Assoc.Proper]
  have hv' : sampleForm.Exact := by
    simp [sampleForm, Json.Exact, Json.ExactItems, Json.ExactMembers, Json.maxSafe]
  have hw' : sampleTurned.Exact := by
    simp [sampleTurned, Json.Exact, Json.ExactItems, Json.ExactMembers, Json.maxSafe]
  have hinner : (Json.obj [("b", .null), ("a", .int (-1))]).Alike (.obj [("a", .int (-1)), ("b", .null)]) :=
    ⟨rfl, ⟨_, rfl, rfl⟩, ⟨_, rfl, rfl⟩, trivial⟩
  have halike : sampleForm.Alike sampleTurned := ⟨rfl, ⟨_, rfl, hinner, trivial⟩, ⟨_, rfl, rfl⟩, trivial⟩
  have hform : sampleMap.toJson = .ok sampleForm := rfl
  have hturned : (Payload.json sampleTurned).toJson = .ok sampleTurned := rfl
  obtain ⟨s, t, hs, ht, hst⟩ := canonical_eq_iff hform hturned hv hw hv' hw'
  exact ⟨s, hs, hst.mpr halike ▸ ht⟩

end IntentBuild.Payload
