import IntentBuild.Text.Blank

/-!
# Turns of a conversation

A conversation with a model is a list of turns.  Providers differ in what they accept.  Some
have no system role, and some refuse two turns of the same role in a row.  `normalize` maps a
role primer and a list of turns onto what a provider accepts.

Without a system role the primer becomes a turn of the user with an acknowledgement, and every
system turn becomes a turn of the user.  Where two user turns or two assistant turns would stand
next to each other and may not, a filler of the other role goes between them.
-/

namespace IntentBuild

/-- Who speaks. -/
inductive Role where
  /-- The instructions. -/
  | system
  /-- The one who asks. -/
  | user
  /-- The model. -/
  | assistant
deriving DecidableEq, Repr

namespace Role

/-- The word of a role. -/
def text : Role → String
  | .system => "system"
  | .user => "user"
  | .assistant => "assistant"

/-- The role of a word. -/
def ofText? (s : String) : Option Role := [system, user, assistant].find? fun r => r.text == s

end Role

/-- A turn of a conversation. -/
structure Turn where
  /-- Who speaks. -/
  role : Role
  /-- What is said. -/
  text : String
deriving DecidableEq, Repr

/-- What a provider accepts. -/
structure Provider where
  /-- There is a system role. -/
  hasSystem : Bool
  /-- Two user turns or two assistant turns may not follow each other. -/
  alternates : Bool
deriving DecidableEq, Repr

namespace Turn

/-- The text of an acknowledgement of the primer. -/
def acknowledgement : Turn := ⟨.assistant, "ok"⟩

/-- The filler that goes before a turn that may not follow another of its role. -/
def filler : Role → Option Turn
  | .user => some ⟨.assistant, "ok"⟩
  | .assistant => some ⟨.user, "continue"⟩
  | .system => none

/-- The turn as a provider accepts it. -/
def asUser (p : Provider) (t : Turn) : Turn :=
  if t.role == .system && !p.hasSystem then { t with role := .user } else t

/-- The turns that the primer becomes. -/
def primer (p : Provider) (roleContext : String) : List Turn :=
  if Text.hasInk roleContext then
    if p.hasSystem then [⟨.system, roleContext⟩] else [⟨.user, roleContext⟩, acknowledgement]
  else []

/-- Puts fillers between turns of the same role, given the role of the turn before. -/
def spaced (last : Option Role) : List Turn → List Turn
  | [] => []
  | t :: ts =>
      if last == some t.role then (filler t.role).toList ++ t :: spaced (some t.role) ts
      else t :: spaced (some t.role) ts

/-- The turns that a provider gets for a primer and a conversation. -/
def normalize (p : Provider) (roleContext : String) (turns : List Turn) : List Turn :=
  let all := primer p roleContext ++ turns.map (asUser p)
  if p.alternates then spaced none all else all

example : normalize ⟨false, true⟩ "r" [⟨.system, "s"⟩, ⟨.user, "u"⟩]
    = [⟨.user, "r"⟩, ⟨.assistant, "ok"⟩, ⟨.user, "s"⟩, ⟨.assistant, "ok"⟩, ⟨.user, "u"⟩] := by
  decide

end Turn

end IntentBuild
