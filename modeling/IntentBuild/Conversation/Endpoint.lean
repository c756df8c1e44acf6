import IntentBuild.Conversation.Turn
import IntentBuild.Settings.Tools

/-!
# Endpoints

An endpoint answers calls.  A call names its tool and has the turns that the provider accepts.
The answer may depend on all calls made before, so an endpoint is a function of them and of the
new call.  An answer may also cancel the build that waits for it.
-/

namespace IntentBuild

/-- A call of a model. -/
structure Call where
  /-- The tool. -/
  tool : ToolConfig
  /-- The turns of the conversation. -/
  turns : List Turn
deriving DecidableEq, Repr

/-- The call with a prompt, under a role. -/
def Call.ofPrompt (tool : ToolConfig) (roleContext prompt : String) : Call :=
  ⟨tool, Turn.normalize tool.provider roleContext [⟨.user, prompt⟩]⟩

/-- The text of the last turn. -/
def Call.lastText (c : Call) : String := (c.turns.getLast?.map Turn.text).getD ""

/-- What an endpoint answers. -/
inductive Outcome where
  /-- The texts of the reply. -/
  | texts (parts : List String)
  /-- A status other than success, with details. -/
  | status (name : String) (details : Option String)
  /-- The call failed, with the name of the failure and its text. -/
  | raised (name text : String)
deriving DecidableEq, Repr

/-- The answer to a call. -/
structure Answer where
  /-- What is answered. -/
  outcome : Outcome
  /-- The build is cancelled before the answer comes. -/
  cancels : Bool := false
deriving DecidableEq, Repr

/-- An endpoint answers a call, given the calls before it, the last one first. -/
abbrev Endpoint := List Call → Call → Answer

/-- The endpoint that cannot reach any model. -/
def Endpoint.unreachable : Endpoint := fun _ _ =>
  ⟨.raised "ConnectionError" "no transport to a model is configured", false⟩

end IntentBuild
