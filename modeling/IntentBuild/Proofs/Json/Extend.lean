import IntentBuild.Proofs.Json.RoundTrip

/-!
# Reading does not look past a value

An object is read the same whatever text follows its closing brace, and so is every other value that a
character follows which does not go on with a number (`readValue?_extend`).  In consequence an object
text has no other object text as its beginning: what follows a whole object can only be white space
(`parseChars?_append`).

The reader only gets more fuel for the longer text, so both are taken up in one induction.
-/

namespace IntentBuild.Json

/-! ## Words and numbers -/

/-- A character stands here, and it does not go on with a number. -/
def Bounded (cs : List Char) : Prop := cs ≠ [] ∧ Ends cs

theorem Bounded.append {cs : List Char} (h : Bounded cs) (t : List Char) : Ends (cs ++ t) := by
  obtain ⟨hne, he⟩ := h
  cases cs with
  | nil => exact absurd rfl hne
  | cons c cs => exact he

theorem span_extend {p : Char → Bool} {cs ds rest : List Char} (h : cs.span p = (ds, rest))
    (hne : rest ≠ []) (t : List Char) : (cs ++ t).span p = (ds, rest ++ t) := by
  rw [List.span_eq_takeWhile_dropWhile, Prod.mk.injEq] at h
  obtain ⟨hds, hrest⟩ := h
  have hcs : cs = ds ++ rest := by rw [← hds, ← hrest, List.takeWhile_append_dropWhile]
  rw [hcs, List.append_assoc]
  refine span_append (fun c hc => ?_) fun c hc => ?_
  · exact List.all_eq_true.mp List.all_takeWhile c (hds ▸ hc)
  · have hhead := List.head?_dropWhile_not p cs
    rw [List.head?_append_of_ne_nil rest hne] at hc
    rw [hrest, hc] at hhead
    exact hhead

theorem wholePart?_extend {cs ds rest : List Char} (h : wholePart? cs = some (ds, rest))
    (hne : rest ≠ []) (t : List Char) : wholePart? (cs ++ t) = some (ds, rest ++ t) := by
  unfold wholePart? at h
  split at h
  · cases h
    rfl
  · rename_i c cs hzero
    split at h
    · rename_i hc
      rw [List.cons_append, wholePart?, if_pos hc]
      · exact congrArg some (span_extend (Option.some.inj h) hne t)
      · exact fun he => hzero he
    · cases h
  · cases h

theorem wholePart?_head {cs : List Char} {r : List Char × List Char} (h : wholePart? cs = some r) :
    ∃ c more, cs = c :: more ∧ Text.isAsciiDigit c = true := by
  unfold wholePart? at h
  split at h
  · exact ⟨_, _, rfl, by decide⟩
  · split at h
    · rename_i hc
      exact ⟨_, _, rfl, hc⟩
    · cases h
  · cases h

theorem fraction_extend {cs ds rest : List Char} (h : fraction cs = (ds, rest)) (hne : rest ≠ [])
    (hpoint : ∀ c ∈ rest.head?, c ≠ '.') (t : List Char) :
    fraction (cs ++ t) = (ds, rest ++ t) := by
  have none (hcs : cs = rest) (hds : ds = []) : fraction (cs ++ t) = (ds, rest ++ t) := by
    subst hcs hds
    cases cs with
    | nil => exact absurd rfl hne
    | cons c cs => exact fraction_none hpoint
  unfold fraction at h
  split at h
  · rename_i d more
    split at h
    · rename_i hd
      have hspan := span_extend h hne t
      rw [List.cons_append] at hspan
      rw [List.cons_append, List.cons_append, fraction, if_pos hd, hspan]
    · cases h
      exact none rfl rfl
  · cases h
    exact none rfl rfl

theorem exponent?_extend {cs rest : List Char} {e : Int} (h : exponent? cs = some (e, rest))
    (hne : rest ≠ []) (t : List Char) : exponent? (cs ++ t) = some (e, rest ++ t) := by
  fun_cases exponent? cs with
  | case1 c cs hc negative body hsign ds after hspan hds =>
      simp only [exponent?, hc, hsign, hspan, hds, if_true] at h
      cases h
  | case2 c cs hc negative body hsign ds after hspan hds n =>
      simp only [exponent?, hc, hsign, hspan, hds, if_true, if_false, Bool.false_eq_true] at h
      cases h
      have hlonger := span_extend hspan hne t
      -- The sign is the first character, or there is none and a digit comes first.
      split at hsign
      · cases hsign
        simp only [List.cons_append, exponent?, hc, hlonger, hds, if_true, if_false,
          Bool.false_eq_true]
      · cases hsign
        simp only [List.cons_append, exponent?, hc, hlonger, hds, if_true, if_false,
          Bool.false_eq_true]
      · rename_i hminus hplus
        cases hsign
        cases cs with
        | nil =>
            cases hspan
            exact absurd rfl hds
        | cons s cs =>
            rw [List.cons_append] at hlonger
            rw [List.cons_append, List.cons_append, exponent?]
            · simp only [hc, hlonger, hds, if_true, if_false, Bool.false_eq_true]
            · exact fun r hr => hminus cs (by rw [(List.cons.inj hr).1])
            · exact fun r hr => hplus cs (by rw [(List.cons.inj hr).1])
  | case3 c cs hc =>
      unfold exponent? at h
      rw [if_neg hc] at h
      cases h
  | case4 => cases h

/-- What is left after a fraction, when the number ends at a bound, with an exponent or without. -/
theorem exponent?_append {cs : List Char} (h : Bounded (((exponent? cs).map Prod.snd).getD cs))
    (t : List Char) :
    exponent? (cs ++ t) = (exponent? cs).map fun r => (r.1, r.2 ++ t) := by
  cases he : exponent? cs with
  | none =>
      rw [he] at h
      exact exponent?_none fun c hc => (h.append t c hc).2.2
  | some r =>
      rw [he] at h
      exact exponent?_extend he h.1 t

/-- No point stands where a number has no fraction, so neither does one in the longer text. -/
theorem head_ne_point {cs : List Char} (h : Bounded (((exponent? cs).map Prod.snd).getD cs)) :
    cs ≠ [] ∧ ∀ c ∈ cs.head?, c ≠ '.' := by
  cases he : exponent? cs with
  | none =>
      rw [he] at h
      exact ⟨h.1, fun c hc => (h.2 c hc).2.1⟩
  | some r =>
      cases cs with
      | nil => cases he
      | cons c cs =>
          refine ⟨nofun, fun d hd hpoint => ?_⟩
          cases hd
          subst hpoint
          cases he

theorem readNumber?_extend {negative : Bool} {cs rest : List Char} {v : Json}
    (h : readNumber? negative cs = some (v, rest)) (hr : Bounded rest) (t : List Char) :
    readNumber? negative (cs ++ t) = some (v, rest ++ t) := by
  unfold readNumber? at h
  cases hw : wholePart? cs with
  | none =>
      rw [hw] at h
      cases h
  | some r =>
      obtain ⟨whole, afterWhole⟩ := r
      cases hf : fraction afterWhole with
      | mk digits afterFraction =>
          simp only [hw, hf] at h
          have hend : ((exponent? afterFraction).map Prod.snd).getD afterFraction = rest := by
            split at h
            · exact (Prod.mk.inj (Option.some.inj h)).2
            · exact (Prod.mk.inj (Option.some.inj h)).2
          rw [← hend] at hr
          obtain ⟨hne, hpoint⟩ := head_ne_point hr
          have hfraction := fraction_extend hf hne hpoint t
          have hwhole := wholePart?_extend hw (fun he => by subst he; cases hf; exact hne rfl) t
          have hafter : ((exponent? (afterFraction ++ t)).map Prod.snd).getD (afterFraction ++ t) =
              ((exponent? afterFraction).map Prod.snd).getD afterFraction ++ t := by
            rw [exponent?_append hr]
            cases exponent? afterFraction <;> rfl
          have hpower : (exponent? (afterFraction ++ t)).map Prod.fst =
              (exponent? afterFraction).map Prod.fst := by
            rw [exponent?_append hr, Option.map_map]
            rfl
          have hisNone : (exponent? (afterFraction ++ t)).isNone =
              (exponent? afterFraction).isNone := by
            rw [exponent?_append hr, Option.isNone_map]
          simp only [readNumber?, hwhole, hfraction, hafter, hpower, hisNone]
          split at h
          · rename_i hdigits
            cases h
            rw [if_pos hdigits]
          · rename_i hdigits
            cases h
            rw [if_neg hdigits]

theorem readNumber?_head {negative : Bool} {cs : List Char} {r : Json × List Char}
    (h : readNumber? negative cs = some r) :
    ∃ d ds, cs = d :: ds ∧ Text.isAsciiDigit d = true := by
  unfold readNumber? at h
  cases hw : wholePart? cs with
  | none =>
      rw [hw] at h
      cases h
  | some r => exact wholePart?_head hw

theorem readWord?_extend {cs rest : List Char} {v : Json} (h : readWord? cs = some (v, rest))
    (hr : Bounded rest) (t : List Char) : readWord? (cs ++ t) = some (v, rest ++ t) := by
  unfold readWord? at h
  split at h
  case h_7 =>
      obtain ⟨d, ds, rfl, hd⟩ := readNumber?_head h
      exact (readWord?_minus hd _).trans (readNumber?_extend h hr t)
  case h_8 =>
      obtain ⟨d, ds, rfl, hd⟩ := readNumber?_head h
      exact (readWord?_digit hd _).trans (readNumber?_extend h hr t)
  all_goals
    cases h
    rfl

/-! ## Strings -/

theorem stringBody?_extend {cs ks rest : List Char} (h : stringBody? cs = some (ks, rest))
    (t : List Char) : stringBody? (cs ++ t) = some (ks, rest ++ t) := by
  fun_induction stringBody? cs generalizing ks rest with
  | case1 | case3 | case5 | case6 | case7 | case8 | case11 | case12 => cases h
  | case2 => cases h; rfl
  | case4 a b c d n hn hhigh e f g k more m hm hlow ih =>
      obtain ⟨r, hr, he⟩ := Option.map_eq_some_iff.mp h
      cases he
      simp only [List.cons_append, stringBody?, hn, hhigh, hm, hlow, if_true, ih hr, Option.map_some]
  | case9 a b c d cs n hn hhigh hlow ih =>
      obtain ⟨r, hr, he⟩ := Option.map_eq_some_iff.mp h
      cases he
      simp only [List.cons_append, stringBody?, hn, hhigh, hlow, if_false, Bool.false_eq_true, ih hr,
        Option.map_some]
  | case10 c cs _ e hescape ih =>
      obtain ⟨r, hr, he⟩ := Option.map_eq_some_iff.mp h
      cases he
      have hu : c ≠ 'u' := by
        rintro rfl
        cases hescape
      rw [List.cons_append, List.cons_append, stringBody?, hescape]
      · simp only [ih hr, Option.map_some]
      · exact fun _ _ _ _ _ hc _ => hu hc
  | case13 c cs hquote hunit hescape hcontrol ih =>
      obtain ⟨r, hr, he⟩ := Option.map_eq_some_iff.mp h
      cases he
      -- A backslash at the end of the text closes no string.
      have hslash : c ≠ '\\' := by
        rintro rfl
        cases cs with
        | nil => cases hr
        | cons d cs => exact hescape d cs rfl rfl
      rw [List.cons_append, stringBody?, if_neg hcontrol]
      · simp only [ih hr, Option.map_some]
      · exact hquote
      · exact fun _ _ _ _ _ hc _ => hslash hc
      · exact fun _ _ hc _ => hslash hc

/-! ## Values -/

theorem skipSpace_append {cs : List Char} (h : skipSpace cs ≠ []) (t : List Char) :
    skipSpace (cs ++ t) = skipSpace cs ++ t := by
  unfold skipSpace at h ⊢
  rw [List.dropWhile_append, if_neg (by simpa using h)]

theorem skipSpace_extend {cs after : List Char} {c : Char} (h : skipSpace cs = c :: after)
    (t : List Char) : skipSpace (cs ++ t) = c :: (after ++ t) := by
  rw [skipSpace_append (by simp [h]), h, List.cons_append]

/-- A comma or a closing bracket bounds what stands before it, with white space between them or not. -/
theorem bounded_of_skipSpace {cs after : List Char} {c : Char} (h : skipSpace cs = c :: after)
    (hc : c ∈ [',', ']', '}']) : Bounded cs := by
  cases cs with
  | nil => cases h
  | cons d cs =>
      refine ⟨nofun, ?_⟩
      by_cases hd : d ∈ [' ', '\n', '\t', '\r']
      · intro e he
        cases he
        simp only [List.mem_cons, List.not_mem_nil, or_false] at hd
        rcases hd with rfl | rfl | rfl | rfl <;> decide
      · rw [skipSpace_cons hd] at h
        cases h
        exact ends_cons (List.mem_append_left [' ', '\n'] hc) _

theorem readWord?_ne_obj {cs rest : List Char} {v : Json} (h : readWord? cs = some (v, rest))
    (ms : Members) : v ≠ .obj ms := by
  have number {negative : Bool} {cs : List Char} (h : readNumber? negative cs = some (v, rest)) :
      v ≠ .obj ms := by
    unfold readNumber? at h
    split at h
    · cases h
    · dsimp only at h
      split at h <;>
        cases h <;>
        exact Json.noConfusion
  unfold readWord? at h
  split at h
  case h_7 => exact number h
  case h_8 => exact number h
  all_goals
    cases h
    exact Json.noConfusion

theorem readWord?_cons {cs : List Char} {r : Json × List Char} (h : readWord? cs = some r) :
    ∃ c more, cs = c :: more := by
  cases cs with
  | nil => cases h
  | cons c cs => exact ⟨c, cs, rfl⟩

theorem readItems?_cons {fuel : Nat} {cs : List Char} {r : List Json × List Char}
    (h : readItems? fuel cs = some r) : ∃ c more, cs = c :: more := by
  cases cs with
  | nil =>
      rcases fuel with _ | _ | fuel
      · cases h
      · cases h
      · cases h
  | cons c cs => exact ⟨c, cs, rfl⟩

theorem readMembers?_cons {fuel : Nat} {cs : List Char} {r : Members × List Char}
    (h : readMembers? fuel cs = some r) : ∃ more, cs = '"' :: more := by
  cases fuel with
  | zero => cases h
  | succ fuel =>
      unfold readMembers? at h
      split at h
      · exact ⟨_, rfl⟩
      · cases h

mutual

/-- A value is read the same in a longer text, when it is an object or something bounds it. -/
theorem readValue?_extend : ∀ (fuel : Nat) {cs rest : List Char} {v : Json},
    readValue? fuel cs = some (v, rest) → Bounded rest ∨ (∃ ms, v = .obj ms) →
      ∀ {more : Nat}, fuel ≤ more → ∀ t : List Char,
        readValue? more (cs ++ t) = some (v, rest ++ t)
  | fuel + 1, cs, rest, v, h, hr, more + 1, hle, t => by
      have hle : fuel ≤ more := Nat.le_of_succ_le_succ hle
      unfold readValue? at h
      split at h
      · rename_i start hstart
        split at h
        · rename_i after hclose
          cases h
          simp only [readValue?, skipSpace_extend hstart t, skipSpace_extend hclose t]
        · obtain ⟨r, hm, he⟩ := Option.map_eq_some_iff.mp h
          cases he
          obtain ⟨key, hkey⟩ := readMembers?_cons hm
          have hmembers := readMembers?_extend fuel hm hle t
          rw [hkey, List.cons_append] at hmembers
          simp only [readValue?, skipSpace_extend hstart t, skipSpace_extend hkey t]
          split
          · rename_i hclose
            cases (List.cons.inj hclose).1
          · rw [hmembers, Option.map_some]
      · rename_i start hstart
        split at h
        · rename_i after hclose
          cases h
          simp only [readValue?, skipSpace_extend hstart t, skipSpace_extend hclose t]
        · rename_i hopen
          obtain ⟨r, hm, he⟩ := Option.map_eq_some_iff.mp h
          cases he
          obtain ⟨c, item, hitem⟩ := readItems?_cons hm
          have hitems := readItems?_extend fuel hm hle t
          rw [hitem, List.cons_append] at hitems
          simp only [readValue?, skipSpace_extend hstart t, skipSpace_extend hitem t]
          split
          · rename_i hclose
            rw [(List.cons.inj hclose).1] at hitem
            exact absurd hitem (hopen _)
          · rw [hitems, Option.map_some]
      · rename_i start hstart
        obtain ⟨r, hs, he⟩ := Option.map_eq_some_iff.mp h
        cases he
        rw [readValue?, skipSpace_extend hstart t]
        simp only [stringBody?_extend hs t, Option.map_some]
      · rename_i hobject hlist hstring
        have hbounded : Bounded rest := by
          rcases hr with hr | ⟨ms, rfl⟩
          · exact hr
          · exact absurd rfl (readWord?_ne_obj h ms)
        obtain ⟨c, word, hword⟩ := readWord?_cons h
        have hlonger := readWord?_extend h hbounded t
        rw [hword, List.cons_append] at hlonger
        rw [readValue?, skipSpace_extend hword t]
        split
        · rename_i he
          rw [(List.cons.inj he).1] at hword
          exact absurd hword (hobject _)
        · rename_i he
          rw [(List.cons.inj he).1] at hword
          exact absurd hword (hlist _)
        · rename_i he
          rw [(List.cons.inj he).1] at hword
          exact absurd hword (hstring _)
        · exact hlonger

/-- Items are read the same in a longer text. -/
theorem readItems?_extend : ∀ (fuel : Nat) {cs rest : List Char} {vs : List Json},
    readItems? fuel cs = some (vs, rest) → ∀ {more : Nat}, fuel ≤ more → ∀ t : List Char,
      readItems? more (cs ++ t) = some (vs, rest ++ t)
  | fuel + 1, cs, rest, vs, h, more + 1, hle, t => by
      have hle : fuel ≤ more := Nat.le_of_succ_le_succ hle
      unfold readItems? at h
      split at h
      · cases h
      · rename_i v after hv
        split at h
        · rename_i close hclose
          cases h
          have hv := readValue?_extend fuel hv (.inl (bounded_of_skipSpace hclose (by simp))) hle t
          rw [readItems?, hv]
          simp only [skipSpace_extend hclose t]
        · rename_i next hcomma
          obtain ⟨r, hr, he⟩ := Option.map_eq_some_iff.mp h
          cases he
          have hv := readValue?_extend fuel hv (.inl (bounded_of_skipSpace hcomma (by simp))) hle t
          rw [readItems?, hv]
          simp only [skipSpace_extend hcomma t, readItems?_extend fuel hr hle t, Option.map_some]
        · cases h

/-- Members are read the same in a longer text. -/
theorem readMembers?_extend : ∀ (fuel : Nat) {cs rest : List Char} {ms : Members},
    readMembers? fuel cs = some (ms, rest) → ∀ {more : Nat}, fuel ≤ more → ∀ t : List Char,
      readMembers? more (cs ++ t) = some (ms, rest ++ t)
  | fuel + 1, cs, rest, ms, h, more + 1, hle, t => by
      have hle : fuel ≤ more := Nat.le_of_succ_le_succ hle
      unfold readMembers? at h
      split at h
      · split at h
        · cases h
        · rename_i start key afterKey hkey
          split at h
          · rename_i next hcolon
            split at h
            · cases h
            · rename_i v after hv
              split at h
              · rename_i close hclose
                cases h
                have hv := readValue?_extend fuel hv
                  (.inl (bounded_of_skipSpace hclose (by simp))) hle t
                rw [List.cons_append, readMembers?]
                simp only [stringBody?_extend hkey t, skipSpace_extend hcolon t, hv,
                  skipSpace_extend hclose t]
              · rename_i others hcomma
                obtain ⟨r, hr, he⟩ := Option.map_eq_some_iff.mp h
                cases he
                have hv := readValue?_extend fuel hv
                  (.inl (bounded_of_skipSpace hcomma (by simp))) hle t
                rw [List.cons_append, readMembers?]
                obtain ⟨quoted, hquoted⟩ := readMembers?_cons hr
                have hmembers := readMembers?_extend fuel hr hle t
                rw [hquoted, List.cons_append] at hmembers
                simp only [stringBody?_extend hkey t, skipSpace_extend hcolon t, hv,
                  skipSpace_extend hcomma t, skipSpace_extend hquoted t, hmembers, Option.map_some]
              · cases h
          · cases h
      · cases h

end

/-! ## Objects -/

/-- The text of an object begins with a brace. -/
theorem skipSpace_of_readValue?_obj {fuel : Nat} {cs rest : List Char} {ms : Members}
    (h : readValue? fuel cs = some (.obj ms, rest)) : ∃ more, skipSpace cs = '{' :: more := by
  cases fuel with
  | zero => cases h
  | succ fuel =>
      unfold readValue? at h
      split at h
      · rename_i more hmore
        exact ⟨more, hmore⟩
      · split at h
        · cases h
        · obtain ⟨r, -, he⟩ := Option.map_eq_some_iff.mp h
          cases he
      · obtain ⟨r, -, he⟩ := Option.map_eq_some_iff.mp h
        cases he
      · exact absurd rfl (readWord?_ne_obj h ms)

theorem parseChars?_eq_some {cs : List Char} {v : Json} :
    parseChars? cs = some v ↔
      ∃ rest, readValue? (cs.length + 1) cs = some (v, rest) ∧ skipSpace rest = [] := by
  unfold parseChars?
  cases h : readValue? (cs.length + 1) cs with
  | none => simp
  | some r =>
      obtain ⟨w, rest⟩ := r
      simp only [Option.some.injEq, Prod.mk.injEq, List.isEmpty_iff]
      constructor
      · intro hw
        split at hw
        · rename_i hrest
          exact ⟨rest, ⟨Option.some.inj hw, rfl⟩, hrest⟩
        · cases hw
      · rintro ⟨_, ⟨rfl, rfl⟩, hrest⟩
        rw [if_pos hrest]

/-- After an object text only white space may follow.  The object is the same then. -/
theorem parseChars?_append {cs : List Char} {ms : Members} (h : parseChars? cs = some (.obj ms))
    (t : List Char) :
    parseChars? (cs ++ t) = if (skipSpace t).isEmpty then some (.obj ms) else none := by
  obtain ⟨rest, hread, hrest⟩ := parseChars?_eq_some.mp h
  have hlonger : readValue? ((cs ++ t).length + 1) (cs ++ t) = some (.obj ms, rest ++ t) :=
    readValue?_extend _ hread (.inr ⟨ms, rfl⟩) (by simp) t
  have hspace : skipSpace (rest ++ t) = skipSpace t := by
    unfold skipSpace at hrest ⊢
    rw [List.dropWhile_append, hrest]
    rfl
  unfold parseChars?
  simp only [hlonger, hspace]

end IntentBuild.Json
