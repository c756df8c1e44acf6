import IntentBuild.Conversation.Reply
import IntentBuild.Proofs.Json.Extend
import IntentBuild.Proofs.Text.Trim

/-!
# The object in a reply

A reply that holds one object text, with no opening brace before it and no closing brace after it, gives
that object in two of the three places where it is looked for: the whole text, and the span of the
braces.  Between the two a fenced block is tried, and a fence may also stand inside a string of the
object.  `extract_surrounded` says which object a reply gives then.
-/

namespace IntentBuild.Reply

/-! ## The span of the braces -/

variable {p s q : List Char}

/-- The braces of a surrounded object text span just this text. -/
theorem braced?_surrounded (hp : '{' ∉ p) (hq : '}' ∉ q) (hfirst : s.head? = some '{')
    (hlast : s.getLast? = some '}') : braced? (p ++ s ++ q) = some s := by
  have hs : s ≠ [] := by
    rintro rfl
    cases hfirst
  have hstart : (p ++ s ++ q).dropWhile (· != '{') = s ++ q := by
    rw [List.append_assoc, List.dropWhile_append_of_pos fun c hc => by
      simpa using fun h : c = '{' => hp (h ▸ hc)]
    refine Text.dropWhile_eq fun c hc => ?_
    rw [List.head?_append_of_ne_nil s hs, hfirst] at hc
    cases hc
    rfl
  have hend : (s ++ q).reverse.dropWhile (· != '}') = s.reverse := by
    rw [List.reverse_append, List.dropWhile_append_of_pos fun c hc => by
      simpa using fun h : c = '}' => hq (List.mem_reverse.mp (h ▸ hc))]
    refine Text.dropWhile_eq fun c hc => ?_
    rw [List.head?_reverse, hlast] at hc
    cases hc
    rfl
  simp only [braced?, hstart, hend, List.reverse_reverse, List.isEmpty_iff, if_neg hs]

/-! ## Fenced blocks -/

/-- An opening fence: three backquotes, a word or none, and blanks. -/
def Opening (fence : List Char) : Prop :=
  ∃ word blanks, fence = "\x60\x60\x60".toList ++ (word ++ blanks) ∧
    (word = [] ∨ word = "json".toList) ∧ ∀ c ∈ blanks, Text.isBlank c = true

theorem Opening.not_mem {fence : List Char} (h : Opening fence) : '{' ∉ fence := by
  obtain ⟨word, blanks, rfl, hword, hblanks⟩ := h
  intro hm
  rcases List.mem_append.mp hm with hm | hm
  · revert hm
    decide
  · rcases List.mem_append.mp hm with hm | hm
    · rcases hword with rfl | rfl
      · cases hm
      · revert hm
        decide
    · exact absurd (hblanks _ hm) (by decide)

theorem fence?_eq_some {cs rest : List Char} (h : fence? cs = some rest) :
    cs = "\x60\x60\x60".toList ++ rest := by
  unfold fence? at h
  split at h
  · cases h
    rfl
  · cases h

theorem afterWord_eq (cs : List Char) :
    ∃ word, (word = [] ∨ word = "json".toList) ∧ cs = word ++ afterWord cs := by
  unfold afterWord
  split
  · exact ⟨"json".toList, .inr rfl, rfl⟩
  · exact ⟨[], .inl rfl, rfl⟩

theorem untilFence?_eq_some {cs block : List Char} (h : untilFence? cs = some block) :
    block.getLast? = some '}' ∧ ∃ after, cs = block ++ after := by
  induction cs generalizing block with
  | nil => cases h
  | cons c cs ih =>
      rw [untilFence?] at h
      split at h
      · rename_i hc
        cases h
        rw [Bool.and_eq_true, beq_iff_eq] at hc
        exact ⟨congrArg some hc.1, cs, rfl⟩
      · obtain ⟨more, hmore, rfl⟩ := Option.map_eq_some_iff.mp h
        obtain ⟨hlast, after, rfl⟩ := ih hmore
        refine ⟨?_, after, rfl⟩
        rw [List.getLast?_cons, hlast]
        rfl

/-- What a fenced block looks like: a fence, and then a text from an opening brace to a closing one. -/
theorem fencedHere?_eq_some {cs block : List Char} (h : fencedHere? cs = some block) :
    block.head? = some '{' ∧ block.getLast? = some '}' ∧
      ∃ fence after, Opening fence ∧ cs = fence ++ (block ++ after) := by
  unfold fencedHere? at h
  split at h
  · cases h
  · rename_i rest hfence
    split at h
    · rename_i body hbody
      obtain ⟨more, hmore, rfl⟩ := Option.map_eq_some_iff.mp h
      obtain ⟨hlast, after, rfl⟩ := untilFence?_eq_some hmore
      obtain ⟨word, hword, hrest⟩ := afterWord_eq rest
      refine ⟨rfl, by rw [List.getLast?_cons, hlast]; rfl, _, after,
        ⟨word, (afterWord rest).takeWhile Text.isBlank, rfl, hword, fun c hc =>
          List.all_eq_true.mp List.all_takeWhile c hc⟩, ?_⟩
      have hblanks := List.takeWhile_append_dropWhile (p := Text.isBlank) (l := afterWord rest)
      rw [hbody] at hblanks
      rw [fence?_eq_some hfence, List.append_assoc, List.append_assoc, List.cons_append, hblanks,
        ← hrest]
    · cases h

/-- The block that is found stands somewhere in the text, after its fence. -/
theorem fenced?_eq_some {cs block : List Char} (h : fenced? cs = some block) :
    block.head? = some '{' ∧ block.getLast? = some '}' ∧
      ∃ before fence after, Opening fence ∧ cs = before ++ (fence ++ (block ++ after)) := by
  induction cs with
  | nil => cases h
  | cons c cs ih =>
      rw [fenced?] at h
      split at h
      · rename_i found hfound
        cases h
        obtain ⟨hfirst, hlast, fence, after, hopen, hcs⟩ := fencedHere?_eq_some hfound
        exact ⟨hfirst, hlast, [], fence, after, hopen, hcs⟩
      · obtain ⟨hfirst, hlast, before, fence, after, hopen, rfl⟩ := ih h
        exact ⟨hfirst, hlast, c :: before, fence, after, hopen, rfl⟩

/-! ## Blocks of a surrounded object text -/

/-- The text quotes a block: past its first character stands an opening fence with the block right
after it. -/
def Quotes (s block : List Char) : Prop :=
  ∃ before fence after, before ≠ [] ∧ Opening fence ∧ s = before ++ (fence ++ (block ++ after))

/-- Where a block of the whole text stands: it begins in the object text, since no opening brace stands
before that one, and it ends there, since no closing brace stands after it. -/
theorem within_surrounded {front block after : List Char} (hp : '{' ∉ p) (hq : '}' ∉ q)
    (hblock : block.head? = some '{') (hclose : block.getLast? = some '}')
    (h : p ++ s ++ q = front ++ (block ++ after)) :
    ∃ lead rest, front = p ++ lead ∧ s = lead ++ (block ++ rest) := by
  have hbegin : ∃ lead, front = p ++ lead ∧ s ++ q = lead ++ (block ++ after) := by
    rw [List.append_assoc] at h
    rcases List.append_eq_append_iff.mp h with ⟨lead, hfront, hrest⟩ | ⟨c, hpc, hrest⟩
    · exact ⟨lead, hfront, hrest⟩
    · cases c with
      | nil => exact ⟨[], by simpa using hpc.symm, by simpa using hrest.symm⟩
      | cons d c =>
          refine absurd (show '{' ∈ p from ?_) hp
          have hhead : (block ++ after).head? = some '{' := by
            rw [List.head?_append, hblock]
            rfl
          rw [hrest] at hhead
          cases hhead
          rw [hpc]
          exact List.mem_append_right front (.head c)
  obtain ⟨lead, hfront, hs⟩ := hbegin
  rw [← List.append_assoc] at hs
  rcases List.append_eq_append_iff.mp hs with ⟨c, hlead, hqc⟩ | ⟨rest, hsr, -⟩
  · cases hc : c.getLast? with
    | none =>
        rw [List.getLast?_eq_none_iff.mp hc, List.append_nil] at hlead
        exact ⟨lead, [], hfront, by rw [List.append_nil, hlead]⟩
    | some d =>
        refine absurd (show '}' ∈ q from ?_) hq
        have hend : (lead ++ block).getLast? = some '}' := by
          rw [List.getLast?_append, hclose]
          rfl
        rw [hlead, List.getLast?_append, hc] at hend
        cases hend
        rw [hqc]
        exact List.mem_append_left after (List.mem_of_getLast? hc)
  · exact ⟨lead, rest, hfront, by rw [hsr, List.append_assoc]⟩

/-- A block of the whole text begins the object text, or this text quotes it. -/
theorem begins_or_quotes {before fence block after : List Char} (hp : '{' ∉ p) (hq : '}' ∉ q)
    (hfirst : s.head? = some '{') (hopen : Opening fence) (hblock : block.head? = some '{')
    (hclose : block.getLast? = some '}')
    (h : p ++ s ++ q = before ++ (fence ++ (block ++ after))) :
    (∃ rest, s = block ++ rest) ∨ Quotes s block := by
  rw [← List.append_assoc before] at h
  obtain ⟨lead, rest, hfront, hs⟩ := within_surrounded hp hq hblock hclose h
  cases lead with
  | nil => exact .inl ⟨rest, hs⟩
  | cons c lead =>
      -- The first character of the object text is a brace, so it is none of the fence.
      have hc : c = '{' := by
        rw [hs] at hfirst
        exact Option.some.inj hfirst
      subst hc
      rcases List.append_eq_append_iff.mp hfront with ⟨more, -, hfence⟩ | ⟨more, -, hlead⟩
      · exact absurd (hfence ▸ List.mem_append_right more (.head lead)) hopen.not_mem
      · cases more with
        | nil =>
            rw [List.nil_append] at hlead
            exact absurd (hlead ▸ List.Mem.head lead) hopen.not_mem
        | cons d more =>
            exact .inr ⟨d :: more, fence, rest, nofun, hopen, by
              rw [hs, hlead, List.append_assoc]⟩

/-! ## Extraction -/

theorem object?_eq_some {cs : List Char} {ms : Members} :
    object? cs = some ms ↔ Json.parseChars? cs = some (.obj ms) := by
  unfold object?
  cases h : Json.parseChars? cs with
  | none => simp
  | some v => cases v <;> simp [Json.members?]

/-- An object text with more after it holds the same object, when no more than white space follows. -/
theorem object?_append {cs : List Char} {ms : Members} (h : object? cs = some ms) (t : List Char) :
    object? (cs ++ t) = if (Json.skipSpace t).isEmpty then some ms else none := by
  rw [object?, Json.parseChars?_append (object?_eq_some.mp h)]
  split <;> rfl

/-- A block that begins an object text, and is one itself, is this text. -/
theorem eq_of_begins {block rest : List Char} {o ms : Members} (hs : object? s = some o)
    (hblock : object? block = some ms) (h : s = block ++ rest) : ms = o := by
  rw [h, object?_append hblock] at hs
  split at hs
  · exact Option.some.inj hs
  · cases hs

theorem skipSpace_of_ink {cs : List Char} (h : ∃ c ∈ cs, Text.isBlank c = false) :
    Json.skipSpace cs ≠ [] := by
  obtain ⟨c, hc, hink⟩ := h
  intro hnil
  have hspace := List.dropWhile_eq_nil_iff.mp hnil c hc
  simp only [Bool.or_eq_true, beq_iff_eq] at hspace
  rcases hspace with ((rfl | rfl) | rfl) | rfl <;> cases hink

/-- A text that begins with something else than a blank or a brace is no object text. -/
theorem object?_cons {c : Char} {cs : List Char} (hink : Text.isBlank c = false) (hc : c ≠ '{') :
    object? (c :: cs) = none := by
  refine Option.eq_none_iff_forall_ne_some.mpr fun ms h => ?_
  obtain ⟨rest, hread, -⟩ := Json.parseChars?_eq_some.mp (object?_eq_some.mp h)
  obtain ⟨more, hmore⟩ := Json.skipSpace_of_readValue?_obj hread
  rw [Json.skipSpace_cons] at hmore
  · exact hc (List.cons.inj hmore).1
  · intro hm
    simp only [List.mem_cons, List.not_mem_nil, or_false] at hm
    rcases hm with rfl | rfl | rfl | rfl <;> cases hink

/-- With more than blanks around it, an object text is not the whole text of a reply. -/
theorem object?_surrounded {o : Members} (hs : object? s = some o) (hp : '{' ∉ p)
    (hfirst : ∀ c ∈ p.head?, Text.isBlank c = false) (hlast : ∀ c ∈ q.getLast?, Text.isBlank c = false)
    (hne : p ≠ [] ∨ q ≠ []) : object? (p ++ s ++ q) = none := by
  cases p with
  | nil =>
      have hq : q ≠ [] := by
        rcases hne with hne | hne
        · exact absurd rfl hne
        · exact hne
      have hink : Json.skipSpace q ≠ [] :=
        skipSpace_of_ink ⟨q.getLast hq, List.getLast_mem hq,
          hlast _ (List.getLast?_eq_some_getLast hq)⟩
      rw [List.nil_append, object?_append hs, if_neg (by simpa using hink)]
  | cons c p => exact object?_cons (hfirst c rfl) fun hc => hp (hc ▸ .head p)

/-- A reply that surrounds an object text with no opening brace before it and no closing brace after it
holds this object.  Only when something else than blanks surrounds it, a fenced block that is an object
text goes first; and one with another object is quoted by the object text. -/
theorem extract_surrounded {p s q : String} {o : Members} (hs : Json.parse? s = some (.obj o))
    (hfirst : s.toList.head? = some '{') (hlast : s.toList.getLast? = some '}')
    (hp : '{' ∉ p.toList) (hq : '}' ∉ q.toList) :
    extract (p ++ s ++ q) = .ok (if Text.hasInk p || Text.hasInk q then
        ((fenced? (Text.trim (p ++ s ++ q)).toList).bind object?).getD o else o) ∧
      ∀ block ms, fenced? (Text.trim (p ++ s ++ q)).toList = some block →
        object? block = some ms → ms ≠ o → Quotes s.toList block := by
  have hobject : object? s.toList = some o := object?_eq_some.mpr hs
  have hne : s.toList ≠ [] := by
    intro h
    rw [h] at hfirst
    cases hfirst
  obtain ⟨p', hp'⟩ : ∃ p', p.toList.dropWhile Text.isBlank = p' := ⟨_, rfl⟩
  obtain ⟨q', hq'⟩ : ∃ q', q.toList.reverse.dropWhile Text.isBlank = q' := ⟨_, rfl⟩
  have hbody : Text.trimBothBy Text.isBlank (p ++ s ++ q).toList =
      p' ++ s.toList ++ q'.reverse := by
    rw [String.toList_append, String.toList_append, Text.trimBothBy_surrounded _ _ hne, hp', hq']
    · rw [hfirst]
      rintro c ⟨⟩
      rfl
    · rw [hlast]
      rintro c ⟨⟩
      rfl
  have hbrace : '{' ∉ p' := fun h => hp ((List.dropWhile_sublist _).mem (hp' ▸ h))
  have hbrace' : '}' ∉ q'.reverse := by
    intro h
    rw [← hq', List.mem_reverse] at h
    exact hq (List.mem_reverse.mp ((List.dropWhile_sublist _).mem h))
  have hp'nil : p' = [] ↔ Text.hasInk p = false := by
    rw [← hp', List.dropWhile_eq_nil_iff, Text.hasInk_eq_false]
  have hq'nil : q' = [] ↔ Text.hasInk q = false := by
    rw [← hq', List.dropWhile_eq_nil_iff, Text.hasInk_eq_false]
    simp only [List.mem_reverse]
  rw [Text.trim, String.toList_ofList, hbody]
  constructor
  · have hempty : (p' ++ s.toList ++ q'.reverse).isEmpty = false := by simp [hne]
    rw [extract, hbody]
    simp only [hempty, Bool.false_eq_true, if_false]
    split_ifs with hink
    · have hwhole : object? (p' ++ s.toList ++ q'.reverse) = none := by
        refine object?_surrounded hobject hbrace (hp' ▸ Text.head?_dropWhile _) ?_ ?_
        · rw [List.getLast?_reverse, ← hq']
          exact Text.head?_dropWhile _
        · by_contra hblank
          rw [not_or, not_not, not_not, List.reverse_eq_nil_iff, hp'nil, hq'nil] at hblank
          rw [hblank.1, hblank.2] at hink
          cases hink
      rw [hwhole, braced?_surrounded hbrace hbrace' hfirst hlast]
      cases hfenced : fenced? (p' ++ s.toList ++ q'.reverse) with
      | none => simp [hobject]
      | some block =>
          cases hblock : object? block with
          | none => simp [hobject, hblock]
          | some ms => simp [hblock]
    · rw [Bool.or_eq_true, not_or, Bool.not_eq_true, Bool.not_eq_true] at hink
      rw [hp'nil.mpr hink.1, hq'nil.mpr hink.2, List.nil_append, List.reverse_nil, List.append_nil,
        hobject]
  · intro block ms hfenced hblock hms
    obtain ⟨hopen, hclose, before, fence, after, hfence, heq⟩ := fenced?_eq_some hfenced
    rcases begins_or_quotes hbrace hbrace' hfirst hfence hopen hclose heq with ⟨rest, h⟩ | h
    · exact absurd (eq_of_begins hobject hblock h) hms
    · exact h

/-- An object text whose string quotes a fenced block. -/
def quoting : String := "\x7b\"note\": \"\x60\x60\x60\x7b\x7d\x60\x60\x60\"\x7d"

/-- A text that is read as an object with some names. -/
theorem exists_object {s : String} {names : List String}
    (h : ((Json.parse? s).bind Json.members?).map Assoc.keys = some names) :
    ∃ o, Json.parse? s = some (.obj o) ∧ Assoc.keys o = names := by
  obtain ⟨o, ho, hkeys⟩ := Option.map_eq_some_iff.mp h
  obtain ⟨v, hv, hobject⟩ := Option.bind_eq_some_iff.mp ho
  cases v with
  | obj ms => exact ⟨o, by rw [hv, Option.some.inj hobject], hkeys⟩
  | _ => cases hobject

theorem parse?_quoting : (∃ o, Json.parse? quoting = some (.obj o) ∧ Assoc.keys o = ["note"]) ∧
    quoting.toList.head? = some '{' ∧ quoting.toList.getLast? = some '}' := by
  obtain ⟨hkeys, hends⟩ :
      ((Json.parse? quoting).bind Json.members?).map Assoc.keys = some ["note"] ∧
        quoting.toList.head? = some '{' ∧ quoting.toList.getLast? = some '}' := by decide +kernel
  exact ⟨exists_object hkeys, hends⟩

/-- The words ahead of a fenced block. -/
def ahead : String := "Here it is:\n\x60\x60\x60json\n"

/-- What closes the block, and words after it. -/
def behind : String := "\n\x60\x60\x60\nDone."

/-- Among blanks the text gives its own object, and in a fenced block with words around it a text gives its
own object as well. -/
theorem extract_quoting_alone :
    (∃ o, Json.parse? quoting = some (.obj o) ∧ extract ("\n " ++ quoting ++ " ") = .ok o) ∧
      ∃ o, Json.parse? "\x7b\"a\": []\x7d" = some (.obj o) ∧ Assoc.keys o = ["a"] ∧
        extract (ahead ++ "\x7b\"a\": []\x7d" ++ behind) = .ok o := by
  constructor
  · obtain ⟨⟨o, ho, -⟩, hhead, hlast⟩ := parse?_quoting
    have hown := extract_surrounded (p := "\n ") (q := " ") ho hhead hlast (by decide) (by decide)
    have hblank : (Text.hasInk "\n " || Text.hasInk " ") = false := by decide
    refine ⟨o, ho, ?_⟩
    simpa only [hblank, Bool.false_eq_true, if_false] using hown.1
  · obtain ⟨hkeys, ⟨hopen, hclose⟩, hink, hfenced⟩ :
        ((Json.parse? "\x7b\"a\": []\x7d").bind Json.members?).map Assoc.keys = some ["a"] ∧
          ('{' ∉ ahead.toList ∧ '}' ∉ behind.toList) ∧
          (Text.hasInk ahead || Text.hasInk behind) = true ∧
          fenced? (Text.trim (ahead ++ "\x7b\"a\": []\x7d" ++ behind)).toList =
            some "\x7b\"a\": []\x7d".toList := by decide +kernel
    obtain ⟨o, ho, hkeys⟩ := exists_object hkeys
    have hown := extract_surrounded ho (by decide) (by decide) hopen hclose
    refine ⟨o, ho, hkeys, ?_⟩
    rw [hown.1, if_pos hink, hfenced, Option.bind_some, object?_eq_some.mpr ho, Option.getD_some]

/-- Surrounded by more than blanks, this text gives the object in the quoted block, and not its own. -/
theorem extract_quoting : ¬ ∀ (p s q : String) (o : Members), Json.parse? s = some (.obj o) →
    s.toList.head? = some '{' → s.toList.getLast? = some '}' → '{' ∉ p.toList → '}' ∉ q.toList →
      extract (p ++ s ++ q) = .ok o := by
  intro h
  obtain ⟨⟨o, ho, hkeys⟩, hhead, hlast⟩ := parse?_quoting
  have hown := h "x " quoting "" o ho hhead hlast (by decide) (by decide)
  have hquoted : (extract ("x " ++ quoting ++ "")).toOption.map Assoc.keys = some [] := by
    decide +kernel
  rw [hown] at hquoted
  simp only [Except.toOption, Option.map_some, hkeys] at hquoted
  cases hquoted

end IntentBuild.Reply
