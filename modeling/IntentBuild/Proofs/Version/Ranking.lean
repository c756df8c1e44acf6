import IntentBuild.Proofs.Dependency.Union
import IntentBuild.Proofs.Files.Path
import IntentBuild.Proofs.Json.Numbers

/-!
# Ranges of equal rank

Two ranges are *tied* when neither is higher than the other.  Versions are equal in order just when they
agree in their three numbers and their pre-release (`compare_eq_iff`), and a pre-release that was read is
known from its text (`pre_eq_iff`).  So a tie says that the least versions agree up to build metadata
(`tied_iff`), however the ranges are spelled.

Ties are an equivalence, and a fold over readable ranges ends with one that none of them is higher than
(`ranked`).
-/

namespace IntentBuild

open Std Text

namespace Identifier

/-- Identifiers are equal in order only if they are equal. -/
instance : LawfulEqCmp compare where
  eq_of_compare {a b} h := by
    cases a with
    | number m =>
        cases b with
        | number n => rw [Nat.compare_eq_eq.mp h]
        | word b => cases h
    | word a =>
        cases b with
        | number n => cases h
        | word b =>
            rw [compare_word] at h
            rw [codes_injective (LawfulEqCmp.eq_of_compare h)]

/-! ## Identifiers that were read -/

/-- A word is one that the reader gives: of letters, digits and hyphens, and not of digits only. -/
def Spelled : Identifier → Prop
  | .number _ => True
  | .word w => (∀ c ∈ w.toList, isPart c = true) ∧ ∃ c ∈ w.toList, isAsciiDigit c = false

theorem spelled_of_ofChars? {cs : List Char} {a : Identifier} (h : ofChars? cs = some a) :
    a.Spelled := by
  unfold ofChars? at h
  split at h
  · cases h
  · rename_i hparts
    split at h
    · split at h
      · cases h
        trivial
      · cases h
    · rename_i hdigits
      cases h
      simp only [Bool.or_eq_true, Bool.not_eq_true', not_or, Bool.not_eq_false] at hparts
      rw [Spelled, String.toList_ofList]
      exact ⟨List.all_eq_true.mp hparts.2, by simpa using hdigits⟩

theorem isAsciiDigit_of_mem_repr {n : Nat} {c : Char} (h : c ∈ (Nat.repr n).toList) :
    isAsciiDigit c = true := by
  obtain ⟨d, ds, hds, hall, -⟩ := Json.toDigits_eq_cons n
  rw [Nat.toList_repr, hds] at h
  exact hall c h

theorem repr_injective {m n : Nat} (h : Nat.repr m = Nat.repr n) : m = n := by
  have hdigits := congrArg String.toList h
  rw [Nat.toList_repr, Nat.toList_repr] at hdigits
  rw [← Json.ofAsciiDigits_toDigits m, hdigits, Json.ofAsciiDigits_toDigits]

/-- An identifier that was read is known from its text. -/
theorem render_injective {a b : Identifier} (ha : a.Spelled) (hb : b.Spelled)
    (h : a.render = b.render) : a = b := by
  have digits {n : Nat} {w : String} (hw : (word w).Spelled) : Nat.repr n ≠ w := by
    rintro rfl
    obtain ⟨c, hc, hno⟩ := hw.2
    rw [isAsciiDigit_of_mem_repr hc] at hno
    cases hno
  cases a with
  | number m =>
      cases b with
      | number n => rw [repr_injective h]
      | word w => exact absurd h (digits hb)
  | word v =>
      cases b with
      | number n => exact absurd h.symm (digits ha)
      | word w => rw [show v = w from h]

theorem point_not_mem_render {a : Identifier} (ha : a.Spelled) : '.' ∉ a.render.toList := by
  intro h
  cases a with
  | number n =>
      have hdigit := isAsciiDigit_of_mem_repr h
      revert hdigit
      decide
  | word w =>
      have hpart := ha.1 _ h
      revert hpart
      decide

end Identifier

namespace Version

/-! ## Versions of equal order -/

theorem comparePre_eq_iff {a b : List Identifier} : comparePre a b = .eq ↔ a = b := by
  constructor
  · intro h
    rw [comparePre_eq, compareLex_eq_eq] at h
    exact LawfulEqCmp.eq_of_compare h.2
  · rintro rfl
    rw [comparePre_eq]
    exact ReflCmp.compare_self

/-- Build metadata takes no part in the order. -/
theorem compare_eq_iff {v w : Version} : v.compare w = .eq ↔
    v.major = w.major ∧ v.minor = w.minor ∧ v.patch = w.patch ∧ v.pre = w.pre := by
  rw [compare, Ordering.then_eq_eq, Ordering.then_eq_eq, Ordering.then_eq_eq, Nat.compare_eq_eq,
    Nat.compare_eq_eq, Nat.compare_eq_eq, comparePre_eq_iff]

/-! ## Pre-releases that were read -/

/-- What a reader gives for every text, all of a list has. -/
theorem forall_of_readAll? {α : Type} {read : List Char → Option α} {p : α → Prop}
    (hread : ∀ {cs a}, read cs = some a → p a) {parts : List (List Char)} {as : List α}
    (h : readAll? read parts = some as) : ∀ a ∈ as, p a := by
  induction parts generalizing as with
  | nil =>
      cases h
      nofun
  | cons part parts ih =>
      rw [readAll?, List.mapM_cons, Option.bind_eq_bind, Option.bind_eq_some_iff] at h
      obtain ⟨a, ha, h⟩ := h
      rw [Option.bind_eq_bind, Option.bind_eq_some_iff] at h
      obtain ⟨as', has, h⟩ := h
      cases h
      exact List.forall_mem_cons.mpr ⟨hread ha, ih has⟩

theorem spelled_of_identifiers? {mark : Char} {stop : Char → Bool} {cs rest : List Char}
    {ids : List Identifier} (h : identifiers? mark stop Identifier.ofChars? cs = some (ids, rest)) :
    ∀ a ∈ ids, a.Spelled := by
  unfold identifiers? at h
  split at h
  · split at h
    · obtain ⟨ids', hread, he⟩ := Option.map_eq_some_iff.mp h
      cases he
      exact forall_of_readAll? Identifier.spelled_of_ofChars? hread
    · cases h
      nofun
  · cases h
    nofun

/-- The identifiers of a version that was read are those that the reader gives. -/
theorem spelled_of_parse? {s : String} {v : Version} (h : parse? s = some v) :
    ∀ a ∈ v.pre, a.Spelled := by
  have rest {a b c : Nat} {cs : List Char}
      (h : ((identifiers? '-' (· == '+') Identifier.ofChars? cs).bind fun pre =>
        (identifiers? '+' (fun _ => false) buildIdentifier? pre.2).bind fun build =>
          if build.2.isEmpty then some (⟨a, b, c, pre.1, build.1⟩ : Version) else none) = some v) :
      ∀ a ∈ v.pre, a.Spelled := by
    obtain ⟨pre, hpre, h⟩ := Option.bind_eq_some_iff.mp h
    obtain ⟨build, -, h⟩ := Option.bind_eq_some_iff.mp h
    split at h
    · cases h
      exact spelled_of_identifiers? hpre
    · cases h
  simp only [parse?, Option.bind_eq_bind, Option.bind_eq_some_iff] at h
  obtain ⟨_, -, _, -, h⟩ := h
  split at h
  · obtain ⟨_, -, h⟩ := Option.bind_eq_some_iff.mp h
    exact rest h
  · exact rest h

/-- Identifiers that were read are known from their texts. -/
theorem eq_of_map_render {as bs : List Identifier} (ha : ∀ a ∈ as, a.Spelled)
    (hb : ∀ b ∈ bs, b.Spelled)
    (h : as.map (fun a => a.render.toList) = bs.map fun b => b.render.toList) : as = bs := by
  induction as generalizing bs with
  | nil => exact (List.map_eq_nil_iff.mp h.symm).symm
  | cons a as ih =>
      cases bs with
      | nil => cases h
      | cons b bs =>
          rw [List.map_cons, List.map_cons, List.cons.injEq] at h
          rw [Identifier.render_injective (ha a (.head _)) (hb b (.head _)) (String.toList_inj.mp h.1),
            ih (fun a h => ha a (.tail _ h)) (fun b h => hb b (.tail _ h)) h.2]

/-- The text of a pre-release splits into the texts of its identifiers. -/
theorem splitChars_preText {v : Version} {t : String} (hv : ∀ a ∈ v.pre, a.Spelled)
    (h : v.preText? = some t) :
    splitChars (· == '.') t.toList = v.pre.map fun a => a.render.toList := by
  unfold preText? at h
  split at h
  · cases h
  · rename_i hne
    cases h
    cases hpre : v.pre with
    | nil => exact absurd (by rw [hpre]; rfl) hne
    | cons a as =>
        rw [joinWith, String.toList_intercalate, List.map_map]
        refine splitChars_intercalate _ _ fun m hm => ?_
        obtain ⟨b, hb, rfl⟩ : ∃ b ∈ a :: as, b.render.toList = m := List.mem_map.mp hm
        exact Identifier.point_not_mem_render (hv b (hpre ▸ hb))

/-- A pre-release that was read is known from its text. -/
theorem preText?_eq_iff {v w : Version} (hv : ∀ a ∈ v.pre, a.Spelled)
    (hw : ∀ a ∈ w.pre, a.Spelled) : v.preText? = w.preText? ↔ v.pre = w.pre := by
  refine ⟨fun h => ?_, fun h => by rw [preText?, preText?, h]⟩
  cases ht : v.preText? with
  | none =>
      have empty {v : Version} (h : v.preText? = none) : v.pre = [] := by
        unfold preText? at h
        split at h
        · rename_i hempty
          exact List.isEmpty_iff.mp hempty
        · cases h
      rw [empty ht, empty (h.symm.trans ht)]
  | some t =>
      refine eq_of_map_render hv hw ?_
      rw [← splitChars_preText hv ht, splitChars_preText hw (h.symm.trans ht)]

/-! ## Ties -/

/-- Neither range is higher than the other. -/
def Tied (s t : String) : Prop := isHigher s (some t) = false ∧ isHigher t (some s) = false

/-- A readable range is higher just when its least version sorts above. -/
theorem isHigher_eq_above {s t : String} {v w : Version} (hv : leastOf? s = some v)
    (hw : leastOf? t = some w) : isHigher s (some t) = v.above w := by
  unfold isHigher
  dsimp only
  rw [hv, hw]

/-- Ranges are tied just when their least versions are equal in order. -/
theorem tied_iff_compare {s t : String} {v w : Version} (hv : leastOf? s = some v)
    (hw : leastOf? t = some w) : Tied s t ↔ v.compare w = .eq := by
  have hswap : w.compare v = (v.compare w).swap := OrientedCmp.eq_swap
  rw [Tied, isHigher_eq_above hv hw, isHigher_eq_above hw hv, above, above, hswap]
  cases v.compare w <;> decide

/-- A tie says that the least versions agree up to build metadata. -/
theorem tied_iff {s t : String} {v w : Version} (hv : leastOf? s = some v)
    (hw : leastOf? t = some w) : Tied s t ↔
      v.major = w.major ∧ v.minor = w.minor ∧ v.patch = w.patch ∧ v.preText? = w.preText? := by
  rw [tied_iff_compare hv hw, compare_eq_iff,
    preText?_eq_iff (spelled_of_parse? hv) (spelled_of_parse? hw)]

open Manifest (best raise raiseAll)

/-- The version of a name in a union of some ranges, which all stand for the name. -/
theorem get?_foldl_raise (name : String) (row : List String) :
    Assoc.get? name (row.foldl (fun union r => raise union name (some r)) []) = best (row.map some) := by
  have hunion := Manifest.get?_union (row.map fun r => (name, some r)) name
  rw [raiseAll, List.foldl_map] at hunion
  rw [hunion, Manifest.saidOf, List.filter_eq_self.mpr (by simp), List.map_map]
  rfl

/-- On readable ranges `isHigher` is a strict weak order, whose ties say that the least versions agree up to
build metadata.  So whatever the order in which some ranges come into a union, the version that it ends
with is one of them, and none of them is higher. -/
theorem ranked {s t u : String} {v w x : Version} {specs : List String}
    (hs : leastOf? s = some v) (ht : leastOf? t = some w) (hu : leastOf? u = some x)
    (hne : specs ≠ []) :
    isHigher s (some s) = false ∧
      (isHigher s (some t) = true → isHigher t (some u) = true → isHigher s (some u) = true) ∧
      Tied s s ∧ (Tied s t → Tied t s) ∧ (Tied s t → Tied t u → Tied s u) ∧
      (Tied s t ↔ v.major = w.major ∧ v.minor = w.minor ∧ v.patch = w.patch ∧
        v.preText? = w.preText?) ∧
      ∀ (name : String) (row : List String), row.Perm specs → ∃ top ∈ specs,
        Assoc.get? name (row.foldl (fun union r => raise union name (some r)) []) = some top ∧
          ∀ r ∈ specs, isHigher r (some top) = false := by
  refine ⟨isHigher_irrefl s, isHigher_trans, ⟨isHigher_irrefl s, isHigher_irrefl s⟩, And.symm,
    fun hst htu => ?_, tied_iff hs ht, fun name row hrow => ?_⟩
  · rw [tied_iff_compare hs ht] at hst
    rw [tied_iff_compare ht hu] at htu
    rw [tied_iff_compare hs hu]
    exact TransCmp.eq_trans hst htu
  · obtain ⟨r, hr⟩ := List.exists_mem_of_ne_nil row fun hnil => hne (hnil ▸ hrow).nil_eq.symm
    cases hbest : best (row.map some) with
    | none => exact absurd (Manifest.best_eq_none.mp hbest _ (List.mem_map_of_mem hr)) nofun
    | some top =>
        obtain ⟨htop, hall⟩ := Manifest.best_eq_some hbest
        obtain ⟨_, hmem, ⟨⟩⟩ := List.mem_map.mp htop
        refine ⟨top, hrow.mem_iff.mp hmem, (get?_foldl_raise name row).trans hbest, fun r hr => ?_⟩
        exact hall r (List.mem_map_of_mem (hrow.mem_iff.mpr hr))

/-- A range with a caret, one with build metadata and a pre-release, which sorts below both. -/
theorem ranked_sample : Tied "^1.2" "1.2.0+build.7" ∧ isHigher "^1.2" (some " ~1.2.0-rc.1 ") = true ∧
    ∃ top ∈ ["1.2.0+build.7", " ~1.2.0-rc.1 ", "^1.2"], Assoc.get? "zod"
      (["^1.2", "1.2.0+build.7", " ~1.2.0-rc.1 "].foldl (fun union r => raise union "zod" (some r)) []) =
        some top ∧ isHigher "1.2.0+build.7" (some top) = false := by
  have hs : leastOf? "^1.2" = some ⟨1, 2, 0, [], []⟩ := by decide +kernel
  have ht : leastOf? "1.2.0+build.7" = some ⟨1, 2, 0, [], ["build", "7"]⟩ := by decide +kernel
  have hu : leastOf? " ~1.2.0-rc.1 " = some ⟨1, 2, 0, [.word "rc", .number 1], []⟩ := by decide +kernel
  have hne : ["1.2.0+build.7", " ~1.2.0-rc.1 ", "^1.2"] ≠ [] := List.cons_ne_nil _ _
  obtain ⟨-, -, -, -, -, htied, hfold⟩ := ranked hs ht hu hne
  have hrow : ["^1.2", "1.2.0+build.7", " ~1.2.0-rc.1 "].Perm
      ["1.2.0+build.7", " ~1.2.0-rc.1 ", "^1.2"] := by decide +kernel
  obtain ⟨top, hmem, htop, hall⟩ := hfold "zod" _ hrow
  exact ⟨htied.mpr (by decide), by decide +kernel, top, hmem, htop, hall _ (by decide)⟩

end Version

end IntentBuild
