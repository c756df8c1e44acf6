import IntentBuild.Graph.Supply
import IntentBuild.Proofs.Text.Hex

/-!
# Fresh identifiers are fresh

The digits of a number determine it (`Text.hexNumber_hexDigits`), so the identifiers of different
numbers differ (`idOf_injective`).  An identifier is *spent* when the supply will never give it
again.  The identifier that is taken next was fresh before, and is spent from then on
(`takes_idOf`).
-/

namespace IntentBuild

namespace Supply

theorem lt_pow_idWidth (n : Nat) : n < 16 ^ idWidth n := by
  have hlog : n < 2 ^ (n.log2 + 1) := Nat.lt_log2_self
  have hle : n.log2 + 1 ≤ 4 * idWidth n := by
    have : n.log2 / 4 + 1 ≤ idWidth n := Nat.le_max_right ..
    omega
  calc n < 2 ^ (n.log2 + 1) := hlog
    _ ≤ 2 ^ (4 * idWidth n) := Nat.pow_le_pow_right (by decide) hle
    _ = 16 ^ idWidth n := by rw [Nat.pow_mul]

/-- Different numbers have different identifiers. -/
theorem idOf_injective {m n : Nat} (h : idOf m = idOf n) : m = n := by
  have hd : Text.hexDigits (idWidth m) m = Text.hexDigits (idWidth n) n := by
    simpa [idOf] using congrArg String.toList h
  rw [← Text.hexNumber_hexDigits _ m (lt_pow_idWidth m), hd,
    Text.hexNumber_hexDigits _ n (lt_pow_idWidth n)]

/-- The supply will never give an identifier. -/
def Spent (s : Supply) (id : String) : Prop := ∀ m, s.nextId ≤ m → idOf m ≠ id

/-- A supply from which only more was taken. -/
structure Le (s s' : Supply) : Prop where
  /-- No identifier was put back. -/
  ids : s.nextId ≤ s'.nextId
  /-- No time was put back. -/
  times : s.nextTime ≤ s'.nextTime

theorem le_refl (s : Supply) : s.Le s := ⟨Nat.le_refl _, Int.le_refl _⟩

theorem le_trans {s s' s'' : Supply} (h : s.Le s') (h' : s'.Le s'') : s.Le s'' :=
  ⟨Nat.le_trans h.ids h'.ids, Int.le_trans h.times h'.times⟩

/-- Taking a time puts nothing back. -/
theorem le_orNow (t : Option Stamp) (s : Supply) : s.Le ((Draft.orNow t).run s).2 := by
  cases t with
  | none => exact ⟨Nat.le_refl _, Int.le_of_lt (Int.lt_succ _)⟩
  | some t => exact le_refl s

theorem Spent.mono {s s' : Supply} {id : String} (h : s.Spent id) (hs : s.Le s') : s'.Spent id :=
  fun m hm => h m (Nat.le_trans hs.ids hm)

/-- Between two supplies an identifier was taken. -/
structure Takes (s s' : Supply) (id : String) : Prop where
  /-- Nothing was put back. -/
  le : s.Le s'
  /-- The identifier was fresh. -/
  fresh : ¬ s.Spent id
  /-- It will not be given again. -/
  spent : s'.Spent id

/-- The next identifier is fresh until it is taken. -/
theorem takes_idOf {s s' : Supply} (h : s.takeId.2.Le s') : s.Takes s' (idOf s.nextId) where
  le := ⟨Nat.le_of_lt h.ids, h.times⟩
  fresh hs := hs s.nextId (Nat.le_refl _) rfl
  spent m hm he := by
    have hlt : s.nextId < s'.nextId := h.ids
    have := idOf_injective he
    omega

end Supply

end IntentBuild
