import IntentBuild.Files.Tree
import IntentBuild.Graph.Place
import IntentBuild.Proofs.Assoc

/-!
# Where paths lead

A path in normal form is spelled by its text (`ofText_text`).  The key of a path in a tree is the
key of its directory with the names below it, as long as no name is `..` (`key_below`).  A text is
joined from its parts (`joinWith_splitAt`), so the path that a file has below a root is the rest of
its text (`partsBelow_eq_ok`), and the source path that it gives leads back out of its directory at
most by its last name (`ofText_withoutIntentSuffix`).
-/

namespace IntentBuild

/-! ## Splitting and joining -/

namespace Text

theorem splitChars_ne_nil (p : Char → Bool) (cs : List Char) : splitChars p cs ≠ [] := by
  cases cs with
  | nil => nofun
  | cons c cs =>
      unfold splitChars
      split
      · nofun
      · split <;> nofun

theorem splitChars_cons (p : Char → Bool) (c : Char) (cs : List Char) :
    ∃ part parts, splitChars p cs = part :: parts ∧
      splitChars p (c :: cs) = if p c then [] :: part :: parts else (c :: part) :: parts := by
  cases h : splitChars p cs with
  | nil => exact absurd h (splitChars_ne_nil p cs)
  | cons part parts =>
      refine ⟨part, parts, rfl, ?_⟩
      rw [splitChars, h]

/-- The parts of the start of a row are the first parts of the row, but for the last one. -/
theorem dropLast_splitChars_take (p : Char → Bool) (cs : List Char) (n : Nat) :
    (splitChars p (cs.take n)).dropLast <+: splitChars p cs := by
  induction cs generalizing n with
  | nil => simp [splitChars]
  | cons c cs ih =>
      cases n with
      | zero => simp [splitChars]
      | succ n =>
          obtain ⟨a, as, ha, hc⟩ := splitChars_cons p c cs
          obtain ⟨b, bs, hb, hd⟩ := splitChars_cons p c (cs.take n)
          have hrest := ih n
          rw [ha, hb] at hrest
          rw [List.take_succ_cons, hd, hc]
          split
          · rw [List.dropLast_cons_cons]
            exact (List.cons_prefix_cons).mpr ⟨rfl, hrest⟩
          · cases bs with
            | nil => exact List.nil_prefix
            | cons d bs =>
                rw [List.dropLast_cons_cons] at hrest ⊢
                obtain ⟨rfl, h⟩ := List.cons_prefix_cons.mp hrest
                exact List.cons_prefix_cons.mpr ⟨rfl, h⟩

/-- A text is joined from its parts. -/
theorem joinWith_splitAt (s : String) : joinWith "/" (splitAt '/' s) = s := by
  have chars (cs : List Char) : List.intercalate ['/'] (splitChars (· == '/') cs) = cs := by
    induction cs with
    | nil => rfl
    | cons c cs ih =>
        obtain ⟨a, as, ha, hc⟩ := splitChars_cons (· == '/') c cs
        rw [hc]
        rw [ha] at ih
        split
        · rename_i h
          rw [List.intercalate_cons_cons, ih, beq_iff_eq.mp h]
          rfl
        · cases as with
          | nil => simpa using ih
          | cons b as =>
              rw [List.intercalate_cons_cons] at ih ⊢
              rw [← ih]
              rfl
  refine String.toList_inj.mp ?_
  rw [joinWith, String.toList_intercalate, splitAt, List.map_map]
  have hmap : (splitChars (· == '/') s.toList).map (String.toList ∘ String.ofList) =
      splitChars (· == '/') s.toList :=
    (List.map_congr_left fun _ _ => String.toList_ofList).trans (List.map_id _)
  rw [hmap]
  exact chars _

theorem splitChars_of_none {p : Char → Bool} {cs : List Char} (h : ∀ c ∈ cs, p c = false) :
    splitChars p cs = [cs] := by
  induction cs with
  | nil => rfl
  | cons c cs ih =>
      have hc : p c = false := h c (.head _)
      rw [splitChars, ih fun d hd => h d (.tail _ hd), hc]
      rfl

/-- A part ends at the first separator. -/
theorem splitChars_append {p : Char → Bool} {part : List Char} {c : Char} {cs : List Char}
    (h : ∀ d ∈ part, p d = false) (hc : p c = true) :
    splitChars p (part ++ c :: cs) = part :: splitChars p cs := by
  induction part with
  | nil => rw [List.nil_append, splitChars, hc]; rfl
  | cons d part ih =>
      have hd : p d = false := h d (.head _)
      rw [List.cons_append, splitChars, ih fun e he => h e (.tail _ he), hd]
      rfl

/-- A row of characters splits into the parts that it is joined from. -/
theorem splitChars_intercalate {d : Char} (part : List Char) (parts : List (List Char))
    (h : ∀ m ∈ part :: parts, d ∉ m) :
    splitChars (· == d) (List.intercalate [d] (part :: parts)) = part :: parts := by
  have free {m : List Char} (hm : d ∉ m) : ∀ c ∈ m, (c == d) = false := by
    intro c hc
    simp only [beq_eq_false_iff_ne]
    rintro rfl
    exact hm hc
  induction parts generalizing part with
  | nil => simpa using splitChars_of_none (free (h part (.head _)))
  | cons q parts ih =>
      rw [List.intercalate_cons_cons, List.append_assoc, List.singleton_append,
        splitChars_append (free (h part (.head _))) (by simp)]
      rw [ih q fun m hm => h m (.tail _ hm)]

/-- A text splits into the parts that it is joined from. -/
theorem splitAt_joinWith (n : String) (ns : List String) (h : ∀ m ∈ n :: ns, '/' ∉ m.toList) :
    splitAt '/' (joinWith "/" (n :: ns)) = n :: ns := by
  rw [splitAt, joinWith, String.toList_intercalate, List.map_cons]
  change (splitChars _ (List.intercalate ['/'] _)).map _ = _
  rw [splitChars_intercalate _ _ ?_]
  · simp
  · intro m hm
    rw [← List.map_cons, List.mem_map] at hm
    obtain ⟨s, hs, rfl⟩ := hm
    exact h s hs

theorem joinWith_append {xs ys : List String} (hx : xs ≠ []) (hy : ys ≠ []) :
    joinWith "/" (xs ++ ys) = joinWith "/" xs ++ "/" ++ joinWith "/" ys := by
  have chars (ls ms : List (List Char)) (hl : ls ≠ []) (hm : ms ≠ []) :
      List.intercalate ['/'] (ls ++ ms) =
        List.intercalate ['/'] ls ++ ['/'] ++ List.intercalate ['/'] ms := by
    induction ls with
    | nil => exact absurd rfl hl
    | cons l ls ih =>
        cases ls with
        | nil =>
            obtain ⟨m, ms, rfl⟩ := List.exists_cons_of_ne_nil hm
            simp [List.intercalate_cons_cons]
        | cons l' ls =>
            have hrest := ih nofun
            rw [List.cons_append] at hrest
            rw [List.cons_append, List.cons_append, List.intercalate_cons_cons, hrest,
              List.intercalate_cons_cons]
            simp only [List.append_assoc]
  refine String.toList_inj.mp ?_
  rw [String.toList_append, String.toList_append]
  simp only [joinWith, String.toList_intercalate, List.map_append]
  exact chars _ _ (by simpa using hx) (by simpa using hy)

theorem not_mem_of_splitAt {d : Char} {s part : String} (h : part ∈ splitAt d s) :
    d ∉ part.toList := by
  obtain ⟨cs, hcs, rfl⟩ := List.mem_map.mp h
  rw [String.toList_ofList]
  have chars (l : List Char) : ∀ part ∈ splitChars (· == d) l, d ∉ part := by
    induction l with
    | nil => simp [splitChars]
    | cons c l ih =>
        obtain ⟨a, as, ha, hc⟩ := splitChars_cons (· == d) c l
        rw [ha] at ih
        rw [hc]
        split
        · simpa using ih
        · rename_i hne
          have hne : d ≠ c := by
            rintro rfl
            simp at hne
          simpa [hne] using ih
  exact chars _ _ hcs

end Text

/-! ## Names of paths -/

namespace Path

theorem resolveNames_concat (ns : List String) (n : String) :
    resolveNames (ns ++ [n]) =
      if n = ".." then (resolveNames ns).dropLast else resolveNames ns ++ [n] := by
  simp [resolveNames]

theorem resolveNames_append {ns ms : List String} (h : ∀ n ∈ ms, n ≠ "..") :
    resolveNames (ns ++ ms) = resolveNames ns ++ ms := by
  induction ms generalizing ns with
  | nil => simp
  | cons n ms ih =>
      rw [List.append_cons, ih fun m hm => h m (.tail _ hm), resolveNames_concat,
        if_neg (h n (.head _)), List.append_assoc, List.singleton_append]

/-- A path with names below it. -/
def below (p : Path) (ns : List String) : Path := { p with names := p.names ++ ns }

theorem child_eq {p : Path} {s : String} (h : (ofText s).anchor = .none) :
    p.child s = p.below (ofText s).names := by
  rw [child, join, if_neg (by simp [isAbsolute, h])]
  rfl

theorem below_below (p : Path) (ns ms : List String) : (p.below ns).below ms = p.below (ns ++ ms) := by
  simp [below]

theorem name_below (p : Path) {ns : List String} (hns : ns ≠ []) : (p.below ns).name = ns.getLastD "" := by
  simp [name, below, List.getLast?_append, List.getLastD_eq_getLast?, List.getLast?_eq_some_getLast hns]

theorem text_below {p : Path} {ns : List String} (hp : p.names ≠ []) (hns : ns ≠ []) :
    (p.below ns).text = p.text ++ "/" ++ Text.joinWith "/" ns := by
  have hempty {l : List String} (h : l ≠ []) : l.isEmpty = false := by simpa using h
  rw [text, text, below, hempty hp, hempty (l := p.names ++ ns) (by simp [hp]), Bool.and_false,
    if_neg nofun, if_neg nofun, Text.joinWith_append hp hns]
  simp only [String.append_assoc]

theorem names_join_below (wd p : Path) (ns : List String) :
    (wd.join (p.below ns)).names = (wd.join p).names ++ ns := by
  have habs : (p.below ns).isAbsolute = p.isAbsolute := rfl
  unfold join
  rw [habs]
  split
  · rfl
  · exact (List.append_assoc ..).symm

/-- The name can stand in a path in normal form. -/
structure IsName (n : String) : Prop where
  /-- It is not empty. -/
  nonempty : n ≠ ""
  /-- It does not mean the directory it stands in. -/
  moves : n ≠ "."
  /-- It has no separator. -/
  whole : '/' ∉ n.toList

instance (n : String) : Decidable (IsName n) :=
  decidable_of_iff (n ≠ "" ∧ n ≠ "." ∧ '/' ∉ n.toList)
    ⟨fun h => ⟨h.1, h.2.1, h.2.2⟩, fun h => ⟨h.nonempty, h.moves, h.whole⟩⟩

theorem isName_of_mem_ofText {s n : String} (h : n ∈ (ofText s).names) : IsName n := by
  obtain ⟨hmem, hn⟩ := List.mem_filter.mp h
  rw [Bool.and_eq_true, bne_iff_ne, bne_iff_ne] at hn
  exact ⟨hn.1, hn.2, Text.not_mem_of_splitAt hmem⟩

/-- The anchor of a text is the one that its start spells. -/
theorem anchorOf_append (a : Anchor) {c : Char} (cs : List Char) (hc : c ≠ '/') :
    anchorOf ((Anchor.text a).toList ++ c :: cs) = a := by
  cases a with
  | none =>
      change anchorOf (c :: cs) = .none
      unfold anchorOf
      split <;> simp_all
  | root =>
      have htext : (Anchor.text .root).toList = ['/'] := by decide +kernel
      rw [htext, List.singleton_append]
      unfold anchorOf
      split <;> simp_all
  | double =>
      have htext : (Anchor.text .double).toList = ['/', '/'] := by decide +kernel
      rw [htext, List.cons_append, List.singleton_append]
      unfold anchorOf
      split <;> simp_all
      rename_i hne heq
      exact hne _ heq.symm

/-- The text of an anchor has no names. -/
theorem splitChars_anchor (a : Anchor) (cs : List Char) :
    ((Text.splitChars (· == '/') ((Anchor.text a).toList ++ cs)).map String.ofList).filter
        (fun n => n != "" && n != ".") =
      ((Text.splitChars (· == '/') cs).map String.ofList).filter fun n => n != "" && n != "." := by
  have drop (cs : List Char) :
      ((Text.splitChars (· == '/') ('/' :: cs)).map String.ofList).filter
          (fun n => n != "" && n != ".") =
        ((Text.splitChars (· == '/') cs).map String.ofList).filter
          fun n => n != "" && n != "." := by
    rw [Text.splitChars, if_pos (by rfl), List.map_cons, List.filter_cons_of_neg (by decide)]
  cases a with
  | none => rfl
  | root =>
      have htext : (Anchor.text .root).toList = ['/'] := by decide +kernel
      rw [htext]
      exact drop cs
  | double =>
      have htext : (Anchor.text .double).toList = ['/', '/'] := by decide +kernel
      rw [htext]
      exact (drop ('/' :: cs)).trans (drop cs)

/-- The text of names starts with a character of the first name. -/
theorem toList_joinWith {n : String} (hn : IsName n) (ns : List String) :
    ∃ c cs, (Text.joinWith "/" (n :: ns)).toList = c :: cs ∧ c ≠ '/' := by
  cases hchars : n.toList with
  | nil => exact absurd (String.toList_eq_nil_iff.mp hchars) hn.nonempty
  | cons c cs =>
      have hc : c ≠ '/' := fun hc => hn.whole (by rw [hchars, hc]; exact .head _)
      rw [Text.joinWith, String.toList_intercalate, List.map_cons, hchars]
      cases ns with
      | nil => exact ⟨c, cs, by simp, hc⟩
      | cons m ns => exact ⟨c, _, rfl, hc⟩

/-- The text of a path in normal form spells the path. -/
theorem ofText_text {p : Path} (h : ∀ n ∈ p.names, IsName n) : ofText p.text = p := by
  obtain ⟨anchor, names⟩ := p
  cases names with
  | nil => cases anchor <;> decide +kernel
  | cons n ns =>
      have hparts := Text.splitAt_joinWith n ns fun m hm => (h m hm).whole
      obtain ⟨c, cs, hchars, hc⟩ := toList_joinWith (h n (.head _)) ns
      have hempty : (n :: ns).isEmpty = false := rfl
      rw [ofText, text, hempty, Bool.and_false, if_neg nofun, Text.splitAt, String.toList_append,
        hchars, splitChars_anchor, anchorOf_append anchor cs hc, ← hchars, ← Text.splitAt, hparts]
      rw [List.filter_eq_self.mpr fun n hn => ?_]
      rw [Bool.and_eq_true, bne_iff_ne, bne_iff_ne]
      exact ⟨(h n hn).nonempty, (h n hn).moves⟩

/-- A name spells the path of itself. -/
theorem IsName.ofText {n : String} (h : IsName n) : ofText n = ⟨.none, [n]⟩ := by
  have htext : (⟨.none, [n]⟩ : Path).text = n := by
    have hempty : [n].isEmpty = false := rfl
    rw [text, hempty, Bool.and_false, if_neg nofun, Text.joinWith, String.intercalate_singleton]
    exact String.empty_append
  have := ofText_text (p := ⟨.none, [n]⟩) fun m hm => List.mem_singleton.mp hm ▸ h
  rwa [htext] at this

/-- Names that can stand in a path spell the path of themselves. -/
theorem ofText_joinWith {ns : List String} (hne : ns ≠ []) (h : ∀ n ∈ ns, IsName n) :
    ofText (Text.joinWith "/" ns) = ⟨.none, ns⟩ := by
  have htext : (⟨.none, ns⟩ : Path).text = Text.joinWith "/" ns := by
    have hempty : ns.isEmpty = false := by simpa using hne
    rw [text, hempty, Bool.and_false, if_neg nofun]
    exact String.empty_append
  rw [← htext]
  exact ofText_text h

theorem child_name {s : String} (p : Path) (h : IsName s) : p.child s = p.below [s] := by
  rw [child_eq (by rw [h.ofText]), h.ofText]

theorem child_ne_nil {s : String} (p : Path) (h : IsName s) : (p.child s).names ≠ [] := by
  rw [child_name p h]
  simp [below]

/-- The text of a source path has a relative path, and at most its last name leads upwards. -/
theorem ofText_withoutIntentSuffix {s : String}
    (h : ∀ part ∈ Text.splitAt '/' s, Graph.isHollow part = false) :
    (ofText (withoutIntentSuffix s)).anchor = .none ∧
      ∀ n ∈ (ofText (withoutIntentSuffix s)).names.dropLast, n ≠ ".." := by
  have hstart : ∃ n, (withoutIntentSuffix s).toList = s.toList.take n := by
    unfold withoutIntentSuffix
    split
    · exact ⟨s.toList.length - 3, by simp [Text.dropLastChars, Text.takeChars]⟩
    · exact ⟨s.toList.length, by simp⟩
  obtain ⟨n, hn⟩ := hstart
  constructor
  · -- The first part is not empty, so the text does not begin with a separator.
    rw [ofText, hn]
    cases hs : s.toList with
    | nil => simp [anchorOf]
    | cons c cs =>
        have hc : c ≠ '/' := fun hc => by
          have hnil : "" ∈ Text.splitAt '/' s := by
            rw [Text.splitAt, hs, hc]
            obtain ⟨a, as, -, hcons⟩ := Text.splitChars_cons (· == '/') '/' cs
            rw [hcons, if_pos (by decide)]
            exact .head _
          exact absurd (h "" hnil) (by decide)
        cases n with
        | zero => rfl
        | succ n =>
            rw [List.take_succ_cons]
            unfold anchorOf
            split
            all_goals first
              | rfl
              | (rename_i heq; exact absurd (List.cons.inj heq).1 hc)
  · intro m hm hdots
    have hparts := Text.dropLast_splitChars_take (· == '/') s.toList n
    rw [← hn] at hparts
    have hmem : m ∈ (Text.splitAt '/' (withoutIntentSuffix s)).dropLast := mem_dropLast_filter hm
    rw [Text.splitAt, ← List.map_dropLast] at hmem
    have hpart := h m ((hparts.map String.ofList).subset hmem)
    rw [hdots] at hpart
    exact absurd hpart (by decide)
where
  /-- Of the names that are left, all but the last stand before the last one of all. -/
  mem_dropLast_filter {parts : List String} {f : String → Bool} {m : String}
      (hm : m ∈ (parts.filter f).dropLast) : m ∈ parts.dropLast := by
    rcases List.eq_nil_or_concat parts with rfl | ⟨init, l, rfl⟩
    · cases hm
    · rw [List.concat_eq_append, List.filter_append] at hm
      rw [List.concat_eq_append, List.dropLast_concat]
      by_cases hl : f l = true
      · rw [List.filter_cons_of_pos hl, List.filter_nil, List.dropLast_concat] at hm
        exact (List.mem_filter.mp hm).1
      · rw [List.filter_cons_of_neg hl, List.filter_nil, List.append_nil] at hm
        exact (List.mem_filter.mp (List.dropLast_subset _ hm)).1

end Path

/-! ## Keys -/

namespace FileTree

/-- The key of names below a directory, none of which leads upwards. -/
theorem key_below (t : FileTree) (p : Path) {ns : List String} (h : ∀ n ∈ ns, n ≠ "..") :
    t.key (p.below ns) = t.key p ++ ns := by
  rw [key, Path.resolve, Path.names_join_below]
  exact Path.resolveNames_append h

/-- The key of names below a directory, of which only the last may lead upwards. -/
theorem key_below_concat (t : FileTree) (p : Path) {ns : List String} (h : ∀ n ∈ ns, n ≠ "..")
    (n : String) : t.key (p.below (ns ++ [n])) =
      if n = ".." then (t.key p ++ ns).dropLast else t.key p ++ ns ++ [n] := by
  rw [← key_below t p h, ← Path.below_below]
  rw [key, Path.resolve, Path.names_join_below]
  exact Path.resolveNames_concat ..

end FileTree

namespace Graph

/-- The text of a path that leads somewhere does not end in a separator. -/
theorem rootText_eq {p : Path} (hp : p.names ≠ []) (h : ∀ n ∈ p.names, Path.IsName n) :
    rootText p = p.text := by
  obtain ⟨init, n, hnames⟩ := List.eq_nil_or_concat p.names |>.resolve_left hp
  have hn : Path.IsName n := h n (by rw [hnames]; simp)
  obtain ⟨cs, c, hchars⟩ := List.eq_nil_or_concat n.toList |>.resolve_left
    fun hnil => hn.nonempty (String.toList_eq_nil_iff.mp hnil)
  have hc : c ≠ '/' := fun hc => hn.whole (by rw [hchars, hc]; simp)
  have htext : ∃ front, p.text.toList = front ++ [c] := by
    have hempty : p.names.isEmpty = false := by simpa using hp
    rw [Path.text, hempty, Bool.and_false, if_neg nofun, hnames, List.concat_eq_append]
    cases init with
    | nil => exact ⟨(Path.Anchor.text p.anchor).toList ++ cs, by simp [Text.joinWith, hchars]⟩
    | cons m init =>
        rw [Text.joinWith_append (List.cons_ne_nil m init) (List.cons_ne_nil n [])]
        exact ⟨_, by
          simp only [String.toList_append, Text.joinWith, String.intercalate_singleton, hchars,
            List.concat_eq_append, ← List.append_assoc]
          rfl⟩
  obtain ⟨front, hfront⟩ := htext
  rw [rootText, hfront, List.reverse_append, List.reverse_singleton, List.singleton_append,
    List.dropWhile_cons_of_neg (by simpa using hc), ← List.singleton_append, List.reverse_append,
    List.reverse_reverse, List.reverse_singleton, ← hfront, String.ofList_toList]

theorem partsBelow_append (root rest : String) : partsBelow root (root ++ "/" ++ rest) =
    if (Text.splitAt '/' rest).any isHollow then .error (.parts (root ++ "/" ++ rest))
    else .ok (Text.splitAt '/' rest) := by
  have hbegins : Text.beginsWith (root ++ "/" ++ rest) (root ++ "/") = true := by
    simp only [Text.beginsWith, String.toList_append, List.isPrefixOf_iff_prefix]
    exact List.prefix_append _ _
  have hdrop : Text.dropChars (root ++ "/").toList.length (root ++ "/" ++ rest) = rest := by
    rw [Text.dropChars, String.toList_append (s := root ++ "/"), List.drop_left, String.ofList_toList]
  rw [partsBelow]
  simp only [hbegins, hdrop, if_true]

/-- The path of a file below a root is the rest of its text, and no part of it is hollow. -/
theorem partsBelow_eq_ok {root full : String} {parts : List String}
    (h : partsBelow root full = .ok parts) :
    ∃ s, parts = Text.splitAt '/' s ∧ Text.joinWith "/" parts = s ∧
      ∀ part ∈ parts, isHollow part = false := by
  unfold partsBelow at h
  dsimp only at h
  split at h
  · split at h
    · cases h
    · rename_i hall
      cases h
      refine ⟨_, rfl, Text.joinWith_splitAt _, fun part hp => ?_⟩
      exact Bool.eq_false_iff.mpr fun ht => hall (List.any_eq_true.mpr ⟨part, hp, ht⟩)
  · cases h

end Graph

end IntentBuild
