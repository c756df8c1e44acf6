import IntentBuild.Conversation.Turn
import Mathlib.Data.List.Chain

/-!
# What a provider gets is the conversation

`Turn.normalize` inserts turns: the primer, its acknowledgement and the fillers.  `account` is the same
list with the origin of every turn beside it, so that what was inserted can be told from what was given.

Without the fillers the account is the primer and the conversation, in order (`spacedBy_others`).  The
fillers are read off the gaps between these turns: one stands in a gap between two turns of one role that
may not follow each other (`spacedBy_gap`), and nowhere else (`filler_between`).  So no such turns are
adjacent (`spaced_apart`), a list without such turns is left as it is (`spaced_of_apart`), and normalizing a
second time changes nothing.
-/

namespace IntentBuild.Turn

variable {p : Provider} {last : Option Role} {ts : List Turn} {t u : Turn}

/-! ## Turns that may follow each other -/

/-- Two turns that may follow each other where roles alternate. -/
def Apart (t u : Turn) : Prop := t.role = u.role → t.role = .system

/-- What goes between a turn of the role before, if there is one, and a turn of the role. -/
def gap (last : Option Role) (r : Role) : List Turn := if last == some r then (filler r).toList else []

/-- A filler is of the role that the turn after it is not of, and neither is the system. -/
theorem filler_opposes {r : Role} (h : filler r = some t) :
    (r = .user ∧ t.role = .assistant) ∨ (r = .assistant ∧ t.role = .user) := by
  cases r with
  | user => exact .inl ⟨rfl, by cases h; rfl⟩
  | assistant => exact .inr ⟨rfl, by cases h; rfl⟩
  | system => cases h

/-- What goes into a gap is a filler, and the roles around it are one. -/
theorem mem_gap {r : Role} (h : t ∈ gap last r) : last = some r ∧ filler r = some t := by
  rw [gap] at h
  split at h
  case isTrue hsame => exact ⟨eq_of_beq hsame, Option.mem_toList.mp h⟩
  case isFalse => cases h

/-- At most one turn goes into a gap. -/
theorem gap_eq (last : Option Role) (r : Role) : gap last r = [] ∨ ∃ f, gap last r = [f] := by
  rw [gap]
  split
  case isTrue =>
    cases filler r with
    | none => exact .inl rfl
    | some f => exact .inr ⟨f, rfl⟩
  case isFalse => exact .inl rfl

theorem gap_none {r : Role} : gap none r = [] := rfl

/-- Nothing goes between turns that may follow each other. -/
theorem gap_of_apart (h : Apart t u) : gap (some t.role) u.role = [] := by
  rw [gap]
  split
  case isTrue hsame =>
    have hrole : t.role = u.role := Option.some.inj (eq_of_beq hsame)
    rw [← hrole, h hrole]
    rfl
  case isFalse => rfl

/-- A gap that nothing goes into is one between turns that may follow each other. -/
theorem apart_of_gap (h : gap (some t.role) u.role = []) : Apart t u := by
  intro hrole
  rw [gap, hrole, beq_self_eq_true, if_pos rfl] at h
  rw [hrole]
  cases hu : u.role with
  | system => rfl
  | user => rw [hu] at h; cases h
  | assistant => rw [hu] at h; cases h

theorem spaced_cons : spaced last (t :: ts) = gap last t.role ++ t :: spaced (some t.role) ts := by
  rw [spaced, gap]
  split <;> rfl

/-- What a spaced list holds is of the list or a filler. -/
theorem mem_spaced (h : t ∈ spaced last ts) : t ∈ ts ∨ ∃ r, filler r = some t := by
  induction ts generalizing last with
  | nil => cases h
  | cons u ts ih =>
      rw [spaced_cons] at h
      obtain h | h := List.mem_append.mp h
      · exact .inr ⟨_, (mem_gap h).2⟩
      · obtain rfl | h := List.mem_cons.mp h
        · exact .inl List.mem_cons_self
        · exact (ih h).imp_left (List.mem_cons_of_mem _)

/-- Turns that may follow each other get no fillers. -/
theorem spaced_of_apart (h : ts.IsChain Apart) (hlast : ∀ t ∈ ts.head?, gap last t.role = []) :
    spaced last ts = ts := by
  induction ts generalizing last with
  | nil => rfl
  | cons t ts ih =>
      have hrest := List.isChain_cons.mp h
      rw [spaced_cons, hlast t rfl, List.nil_append, ih hrest.2 fun u hu => gap_of_apart (hrest.1 u hu)]

/-! ## The account of what a provider gets -/

/-- Where a turn that a provider gets comes from. -/
inductive Origin where
  /-- It is the primer, or the acknowledgement of the primer. -/
  | opening
  /-- It is a turn of the conversation. -/
  | given
  /-- It goes between two other turns. -/
  | filler
deriving DecidableEq

/-- A turn that a provider gets, and where it comes from. -/
structure Sent where
  /-- Where the turn comes from. -/
  origin : Origin
  /-- The turn. -/
  turn : Turn
deriving DecidableEq

namespace Sent

variable {s : Sent} {row : List Sent}

/-- The turns of a row without the fillers. -/
def others (row : List Sent) : List Sent := row.filter fun s => s.origin ≠ .filler

/-- The turns of a row that are of the conversation. -/
def conversation (row : List Sent) : List Sent := row.filter fun s => s.origin = .given

/-- The fillers for a gap. -/
def between (last : Option Role) (r : Role) : List Sent := (gap last r).map (Sent.mk .filler)

/-- Puts fillers into the gaps of a row, as `spaced` does. -/
def spacedBy (last : Option Role) : List Sent → List Sent
  | [] => []
  | s :: row => between last s.turn.role ++ s :: spacedBy (some s.turn.role) row

/-- What goes into a gap is marked as a filler, and the roles around it are one. -/
theorem mem_between {r : Role} (h : s ∈ between last r) :
    s.origin = .filler ∧ last = some r ∧ Turn.filler r = some s.turn := by
  obtain ⟨t, ht, rfl⟩ := List.mem_map.mp h
  exact ⟨rfl, mem_gap ht⟩

theorem between_eq (last : Option Role) (r : Role) : between last r = [] ∨ ∃ f, between last r = [f] := by
  obtain hnone | ⟨f, hf⟩ := gap_eq last r
  · exact .inl (by rw [between, hnone, List.map_nil])
  · exact .inr ⟨⟨.filler, f⟩, by rw [between, hf, List.map_singleton]⟩

theorem others_between {r : Role} : others (between last r) = [] :=
  List.filter_eq_nil_iff.mpr fun _ h => by simpa using (mem_between h).1

theorem conversation_between {r : Role} : conversation (between last r) = [] :=
  List.filter_eq_nil_iff.mpr fun _ h => by simp [(mem_between h).1]

/-- The fillers before a turn are not among the others. -/
theorem others_cons {r : Role} (hs : s.origin ≠ .filler) :
    others (between last r ++ s :: row) = s :: others row := by
  have hfill : (between last r).filter (fun s => s.origin ≠ .filler) = [] := others_between
  rw [others, List.filter_append, hfill, List.nil_append, List.filter_cons_of_pos (by simpa using hs), others]

/-- A row that is read without its origins is spaced as the turns are. -/
theorem spacedBy_turns : (spacedBy last row).map turn = spaced last (row.map turn) := by
  induction row generalizing last with
  | nil => rfl
  | cons s row ih =>
      have hfill : (between last s.turn.role).map turn = gap last s.turn.role := by
        rw [between, List.map_map]
        exact List.map_id _
      rw [spacedBy, List.map_append, hfill, List.map_cons, ih, List.map_cons, spaced_cons]

/-- Without the fillers a spaced row is the row. -/
theorem spacedBy_others (h : ∀ s ∈ row, s.origin ≠ .filler) : others (spacedBy last row) = row := by
  induction row generalizing last with
  | nil => rfl
  | cons s row ih =>
      obtain ⟨hs, hrow⟩ := List.forall_mem_cons.mp h
      rw [spacedBy, others_cons hs, ih hrow]

theorem spacedBy_conversation : conversation (spacedBy last row) = conversation row := by
  induction row generalizing last with
  | nil => rfl
  | cons s row ih =>
      have hfill : (between last s.turn.role).filter (fun s => s.origin = .given) = [] := conversation_between
      have hrest := @ih (some s.turn.role)
      rw [conversation, conversation] at hrest
      rw [spacedBy, conversation, List.filter_append, hfill, List.nil_append, conversation, List.filter_cons,
        List.filter_cons, hrest]

/-- Between two turns of a row that follow each other stands what goes into their gap. -/
theorem spacedBy_gap {l r : List Sent} {a b : Sent} (h : row = l ++ a :: b :: r)
    (hgiven : ∀ s ∈ row, s.origin ≠ .filler) :
    ∃ front back, spacedBy last row = front ++ a :: (between (some a.turn.role) b.turn.role ++ b :: back) ∧
      others front = l ∧ others back = r := by
  induction l generalizing last row with
  | nil =>
      subst h
      refine ⟨between last a.turn.role, spacedBy (some b.turn.role) r, rfl, others_between, ?_⟩
      exact spacedBy_others fun s hs => hgiven s (List.mem_cons_of_mem _ (List.mem_cons_of_mem _ hs))
  | cons s l ih =>
      subst h
      obtain ⟨hs, hrest⟩ := List.forall_mem_cons.mp hgiven
      obtain ⟨front, back, hrow, hfront, hback⟩ := @ih (some s.turn.role) _ rfl hrest
      refine ⟨between last s.turn.role ++ s :: front, back, ?_, ?_, hback⟩
      · rw [List.cons_append, spacedBy, hrow, List.append_assoc, List.cons_append]
      · rw [others_cons hs, hfront]

/-- A filler stands right before a turn of the row, and what stands right before it, be it in the row or
before the row, is of the role of that turn. -/
theorem filler_between {before after : List Sent} {f : Sent} (h : spacedBy last row = before ++ f :: after)
    (hf : f.origin = .filler) (hgiven : ∀ s ∈ row, s.origin ≠ .filler) :
    ∃ b back, after = b :: back ∧ b.origin ≠ .filler ∧ Turn.filler b.turn.role = some f.turn ∧
      ((before = [] ∧ last = some b.turn.role) ∨
        ∃ front a, before = front ++ [a] ∧ a.origin ≠ .filler ∧ a.turn.role = b.turn.role) := by
  induction row generalizing last before with
  | nil => exact absurd h.symm (List.append_ne_nil_of_right_ne_nil _ (List.cons_ne_nil _ _))
  | cons s row ih =>
      obtain ⟨hs, hrow⟩ := List.forall_mem_cons.mp hgiven
      rw [spacedBy] at h
      have past {front : List Sent} (hrest : s :: spacedBy (some s.turn.role) row = front ++ f :: after) :
          ∃ b back, after = b :: back ∧ b.origin ≠ .filler ∧ Turn.filler b.turn.role = some f.turn ∧
            ∃ front' a, front = front' ++ [a] ∧ a.origin ≠ .filler ∧ a.turn.role = b.turn.role := by
        cases front with
        | nil => exact absurd hf ((List.cons.inj hrest).1 ▸ hs)
        | cons c front =>
            obtain ⟨rfl, htail⟩ := List.cons.inj hrest
            obtain ⟨b, back, hafter, hb, hfill, hbefore⟩ := ih htail hrow
            refine ⟨b, back, hafter, hb, hfill, ?_⟩
            obtain ⟨rfl, hlast⟩ | ⟨front', a, rfl, ha, hrole⟩ := hbefore
            · exact ⟨[], s, rfl, hs, Option.some.inj hlast⟩
            · exact ⟨s :: front', a, rfl, ha, hrole⟩
      obtain hnone | ⟨g, hg⟩ := between_eq last s.turn.role
      · rw [hnone, List.nil_append] at h
        obtain ⟨b, back, hafter, hb, hfill, hbefore⟩ := past h
        exact ⟨b, back, hafter, hb, hfill, .inr hbefore⟩
      · have hmem := mem_between (hg ▸ List.mem_singleton_self g)
        rw [hg, List.singleton_append] at h
        cases before with
        | nil =>
            obtain ⟨rfl, rfl⟩ := List.cons.inj h
            exact ⟨s, _, rfl, hs, hmem.2.2, .inl ⟨rfl, hmem.2.1⟩⟩
        | cons c before =>
            obtain ⟨rfl, htail⟩ := List.cons.inj h
            obtain ⟨b, back, hafter, hb, hfill, front, a, rfl, ha, hrole⟩ := past htail
            exact ⟨b, back, hafter, hb, hfill, .inr ⟨g :: front, a, rfl, ha, hrole⟩⟩

end Sent

/-! ## No turns that may not follow each other -/

/-- Turns that are spaced after a turn may follow it and each other. -/
theorem spaced_apart : (t :: spaced (some t.role) ts).IsChain Apart := by
  induction ts generalizing t with
  | nil => exact List.isChain_singleton t
  | cons u ts ih =>
      rw [spaced_cons]
      obtain hnone | ⟨f, hgap⟩ := gap_eq (some t.role) u.role
      · rw [hnone]
        exact .cons_cons (apart_of_gap hnone) ih
      · rw [hgap]
        obtain ⟨hlast, hfill⟩ := mem_gap (hgap ▸ List.mem_singleton_self f)
        have hrole : t.role = u.role := Option.some.inj hlast
        have htf : Apart t f := fun hsame => by
          obtain ⟨hu, hf⟩ | ⟨hu, hf⟩ := filler_opposes hfill <;> simp [hrole, hu, hf] at hsame
        have hfu : Apart f u := fun hsame => by
          obtain ⟨hu, hf⟩ | ⟨hu, hf⟩ := filler_opposes hfill <;> simp [hu, hf] at hsame
        exact .cons_cons htf (.cons_cons hfu ih)

theorem spaced_none_apart : (spaced none ts).IsChain Apart := by
  cases ts with
  | nil => exact .nil
  | cons t ts => exact spaced_cons ▸ spaced_apart

/-! ## Normalized conversations -/

/-- The turns that do not go between others: those of the primer, then those of the conversation. -/
def stated (p : Provider) (roleContext : String) (turns : List Turn) : List Sent :=
  (primer p roleContext).map (Sent.mk .opening) ++ turns.map fun t => ⟨.given, t.asUser p⟩

/-- What a provider gets for a primer and a conversation, with where every turn comes from. -/
def account (p : Provider) (roleContext : String) (turns : List Turn) : List Sent :=
  if p.alternates then Sent.spacedBy none (stated p roleContext turns) else stated p roleContext turns

variable {roleContext : String} {turns : List Turn}

theorem stated_turns : (stated p roleContext turns).map Sent.turn
    = primer p roleContext ++ turns.map (asUser p) := by
  rw [stated, List.map_append, List.map_map, List.map_map]
  exact congrArg₂ (· ++ ·) (List.map_id _) rfl

theorem stated_not_filler : ∀ s ∈ stated p roleContext turns, s.origin ≠ .filler := by
  intro s hs
  obtain hs | hs := List.mem_append.mp hs
  · obtain ⟨t, _, rfl⟩ := List.mem_map.mp hs
    exact nofun
  · obtain ⟨t, _, rfl⟩ := List.mem_map.mp hs
    exact nofun

theorem stated_conversation :
    (Sent.conversation (stated p roleContext turns)).map Sent.turn = turns.map (asUser p) := by
  have hopening : ((primer p roleContext).map (Sent.mk .opening)).filter (fun s => s.origin = .given) = [] :=
    List.filter_eq_nil_iff.mpr fun s hs => by
      obtain ⟨t, _, rfl⟩ := List.mem_map.mp hs
      simp
  have hgiven : (turns.map fun t => Sent.mk .given (t.asUser p)).filter (fun s => s.origin = .given)
      = turns.map fun t => ⟨.given, t.asUser p⟩ :=
    List.filter_eq_self.mpr fun s hs => by
      obtain ⟨t, _, rfl⟩ := List.mem_map.mp hs
      simp
  rw [Sent.conversation, stated, List.filter_append, hopening, hgiven, List.nil_append, List.map_map]
  rfl

/-- A provider with a system role gets every turn as it is. -/
theorem asUser_of_hasSystem (h : p.hasSystem = true) : t.asUser p = t := by
  rw [asUser, h, Bool.not_true, Bool.and_false]
  rfl

/-- A turn of another role goes to every provider as it is. -/
theorem asUser_of_role (h : t.role ≠ .system) : t.asUser p = t := by
  rw [asUser, beq_false_of_ne h, Bool.false_and]
  rfl

theorem asUser_of_not_hasSystem (h : p.hasSystem = false) :
    t.asUser p = if t.role = .system then { t with role := .user } else t := by
  simp [asUser, h]

/-- Without a system role, no turn of the primer or of the conversation goes out as one of the system. -/
theorem stated_no_system (h : p.hasSystem = false) :
    ∀ t ∈ primer p roleContext ++ turns.map (asUser p), t.role ≠ .system := by
  intro t ht
  obtain ht | ht := List.mem_append.mp ht
  · have hpair : t ∈ [⟨.user, roleContext⟩, acknowledgement] := by
      rw [primer, h] at ht
      split at ht
      · exact ht
      · cases ht
    obtain rfl | rfl := List.mem_pair.mp hpair <;> exact nofun
  · obtain ⟨u, _, rfl⟩ := List.mem_map.mp ht
    rw [asUser_of_not_hasSystem h]
    split
    case isTrue => exact nofun
    case isFalse hu => exact hu

/-- No turn of what a provider without a system role gets is of the system. -/
theorem normalize_no_system (h : p.hasSystem = false) :
    ∀ t ∈ normalize p roleContext turns, t.role ≠ .system := by
  intro t ht
  rw [normalize] at ht
  split at ht
  · obtain ht | ⟨r, hr⟩ := mem_spaced ht
    · exact stated_no_system h t ht
    · obtain ⟨_, hrole⟩ | ⟨_, hrole⟩ := filler_opposes hr <;> exact hrole ▸ nofun
  · exact stated_no_system h t ht

theorem account_turns : (account p roleContext turns).map Sent.turn = normalize p roleContext turns := by
  rw [account, normalize]
  split
  · rw [Sent.spacedBy_turns, stated_turns]
  · rw [stated_turns]

/-- Where roles alternate, the turns that a provider gets may follow each other. -/
theorem normalize_apart (h : p.alternates = true) : (normalize p roleContext turns).IsChain Apart := by
  rw [normalize, h]
  exact spaced_none_apart

/-- Normalizing what a provider gets a second time, without a primer, changes nothing. -/
theorem normalize_normalize :
    normalize p "" (normalize p roleContext turns) = normalize p roleContext turns := by
  have hsame : (normalize p roleContext turns).map (asUser p) = normalize p roleContext turns := by
    refine (List.map_congr_left fun t ht => ?_).trans (List.map_id _)
    cases h : p.hasSystem with
    | true => exact asUser_of_hasSystem h
    | false => exact asUser_of_role (normalize_no_system h t ht)
  have hblank : primer p "" = [] := rfl
  rw [normalize, hsame, hblank, List.nil_append]
  cases h : p.alternates with
  | true => exact spaced_of_apart (normalize_apart h) fun _ _ => gap_none
  | false => rfl

/-- What goes between two turns is one filler where they may not follow each other, and nothing otherwise. -/
theorem between_turns {a b : Sent} :
    if a.turn.role = b.turn.role ∧ a.turn.role ≠ .system
    then ∃ f, Sent.between (some a.turn.role) b.turn.role = [f] ∧ f.origin = .filler
    else Sent.between (some a.turn.role) b.turn.role = [] := by
  split
  case isTrue h =>
    obtain hnone | ⟨f, hf⟩ := Sent.between_eq (some a.turn.role) b.turn.role
    · exact absurd (apart_of_gap (List.map_eq_nil_iff.mp hnone) h.1) h.2
    · exact ⟨f, hf, (Sent.mem_between (hf ▸ List.mem_singleton_self f)).1⟩
  case isFalse h =>
    have hapart : Apart a.turn b.turn := fun hrole => by_contra fun hs => h ⟨hrole, hs⟩
    rw [Sent.between, gap_of_apart hapart, List.map_nil]

theorem account_gap {l r : List Sent} {a b : Sent} (h : stated p roleContext turns = l ++ a :: b :: r) :
    ∃ front between back, account p roleContext turns = front ++ a :: (between ++ b :: back) ∧
      Sent.others front = l ∧ Sent.others back = r ∧
      if p.alternates ∧ a.turn.role = b.turn.role ∧ a.turn.role ≠ .system
      then ∃ f, between = [f] ∧ f.origin = .filler else between = [] := by
  rw [account]
  cases p.alternates with
  | true =>
      obtain ⟨front, back, hrow, hfront, hback⟩ := Sent.spacedBy_gap h stated_not_filler
      refine ⟨front, _, back, hrow, hfront, hback, ?_⟩
      simpa only [true_and] using between_turns
  | false =>
      have hall : ∀ s ∈ l ++ a :: b :: r, s.origin ≠ .filler := h ▸ stated_not_filler
      have hself {row : List Sent} (hrow : ∀ s ∈ row, s ∈ l ++ a :: b :: r) : Sent.others row = row :=
        List.filter_eq_self.mpr fun s hs => by simpa using hall s (hrow s hs)
      exact ⟨l, [], r, h, hself fun s hs => by simp [hs], hself fun s hs => by simp [hs], by simp⟩

theorem account_filler {before after : List Sent} {f : Sent}
    (h : account p roleContext turns = before ++ f :: after) (hf : f.origin = .filler) :
    p.alternates = true ∧ ∃ front a b back, before = front ++ [a] ∧ after = b :: back ∧
      a.origin ≠ .filler ∧ b.origin ≠ .filler ∧ a.turn.role = b.turn.role ∧
      (f.turn = ⟨.assistant, "ok"⟩ ∧ b.turn.role = .user ∨
        f.turn = ⟨.user, "continue"⟩ ∧ b.turn.role = .assistant) := by
  rw [account] at h
  split at h
  case isTrue halt =>
    obtain ⟨b, back, hafter, hb, hfill, hbefore⟩ := Sent.filler_between h hf stated_not_filler
    obtain ⟨_, hlast⟩ | ⟨front, a, hfront, ha, hrole⟩ := hbefore
    · cases hlast
    · refine ⟨halt, front, a, b, back, hfront, hafter, ha, hb, hrole, ?_⟩
      cases hr : b.turn.role with rw [hr] at hfill
      | user => exact .inl ⟨(Option.some.inj hfill).symm, rfl⟩
      | assistant => exact .inr ⟨(Option.some.inj hfill).symm, rfl⟩
      | system => cases hfill
  case isFalse =>
    exact absurd hf (stated_not_filler f (h ▸ List.mem_append_right _ List.mem_cons_self))

/-- What a row of turns says about a primer and a conversation that a provider gets. -/
structure Accounts (p : Provider) (roleContext : String) (turns : List Turn) (row : List Sent) : Prop where
  /-- The provider gets the turns of the row. -/
  sent : row.map Sent.turn = normalize p roleContext turns
  /-- Without the fillers the row is the primer and then the conversation. -/
  others : Sent.others row = stated p roleContext turns
  /-- Where there is a system role, without what is inserted the row is the conversation. -/
  kept : p.hasSystem = true → (Sent.conversation row).map Sent.turn = turns
  /-- Where there is none, it is the conversation with the turns of the system as turns of the user. -/
  recast : p.hasSystem = false → (Sent.conversation row).map Sent.turn
    = turns.map fun t => if t.role = .system then { t with role := .user } else t
  /-- Where there is no system role, no turn is of the system. -/
  no_system : p.hasSystem = false → ∀ s ∈ row, s.turn.role ≠ .system
  /-- Where roles alternate, no two turns of the user and no two of the assistant are adjacent. -/
  alternating : p.alternates = true →
    row.IsChain fun a b => a.turn.role = b.turn.role → a.turn.role = .system
  /-- Between two turns that follow each other without the fillers stands one filler where roles alternate
  and the two are of the user or of the assistant, and nothing otherwise. -/
  gaps : ∀ l a b r, Sent.others row = l ++ a :: b :: r →
    ∃ front between back, row = front ++ a :: (between ++ b :: back) ∧
      Sent.others front = l ∧ Sent.others back = r ∧
      if p.alternates ∧ a.turn.role = b.turn.role ∧ a.turn.role ≠ .system
      then ∃ f, between = [f] ∧ f.origin = .filler else between = []
  /-- Every filler stands in such a gap, and is of the other role. -/
  fillers : ∀ before f after, row = before ++ f :: after → f.origin = .filler →
    p.alternates = true ∧ ∃ front a b back, before = front ++ [a] ∧ after = b :: back ∧
      a.origin ≠ .filler ∧ b.origin ≠ .filler ∧ a.turn.role = b.turn.role ∧
      (f.turn = ⟨.assistant, "ok"⟩ ∧ b.turn.role = .user ∨
        f.turn = ⟨.user, "continue"⟩ ∧ b.turn.role = .assistant)

/-- The account of what a provider gets says so: the conversation is kept, and the fillers stand where roles
would be adjacent.  A second time, nothing more is inserted. -/
theorem normalize_accounts : Accounts p roleContext turns (account p roleContext turns) ∧
    normalize p "" (normalize p roleContext turns) = normalize p roleContext turns := by
  have hothers : Sent.others (account p roleContext turns) = stated p roleContext turns := by
    rw [account]
    split
    · exact Sent.spacedBy_others stated_not_filler
    · exact List.filter_eq_self.mpr fun s hs => by simpa using stated_not_filler s hs
  have hconversation : (Sent.conversation (account p roleContext turns)).map Sent.turn = turns.map (asUser p) := by
    rw [account]
    split
    · rw [Sent.spacedBy_conversation, stated_conversation]
    · exact stated_conversation
  refine ⟨⟨account_turns, hothers, fun h => ?_, fun h => ?_, fun h s hs => ?_, fun h => ?_, ?_, ?_⟩,
    normalize_normalize⟩
  · rw [hconversation]
    exact (List.map_congr_left fun t _ => asUser_of_hasSystem h).trans (List.map_id _)
  · rw [hconversation]
    exact List.map_congr_left fun t _ => asUser_of_not_hasSystem h
  · exact normalize_no_system h s.turn (account_turns ▸ List.mem_map_of_mem hs)
  · exact (List.isChain_map Sent.turn).mp (account_turns ▸ normalize_apart h)
  · exact fun l a b r h => account_gap (hothers ▸ h)
  · exact fun before f after h hf => account_filler h hf

end IntentBuild.Turn
