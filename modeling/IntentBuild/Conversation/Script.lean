import IntentBuild.Conversation.Endpoint
import IntentBuild.Json.Printer
import IntentBuild.Text.Search

/-!
# Scripted endpoints

A script answers calls by rules.  The first rule whose tool and text fit a call answers it with
its next reply, and the last reply of a rule is repeated.  A call that no rule fits is answered
with an error.
-/

namespace IntentBuild

/-- A rule of a script. -/
structure ScriptRule where
  /-- The name of the tool, if the rule is for one. -/
  tool : Option String
  /-- A part of the text of the last turn, if the rule asks for one. -/
  part : Option String
  /-- The replies, in order. -/
  replies : List Answer
deriving Repr

/-- The answer that a JSON object describes.  It has a value, a text or several texts to reply
with, or a failure to raise, or else a status. -/
def Answer.ofJson (v : Json) : Answer :=
  let outcome :=
    if v.hasField "json" then .texts [(v.get "json").render .line]
    else if v.hasField "text" then .texts [(v.get "text").text]
    else if v.hasField "texts" then .texts (v.get "texts").strings
    else if v.hasField "raise" then .raised (v.get "raise").text (v.get "message").text
    else .status (v.get "status").text (v.get "error").text?
  ⟨outcome, v.get "cancel" matches .bool true⟩

namespace ScriptRule

/-- The rule that a JSON object describes. -/
def ofJson (v : Json) : ScriptRule :=
  { tool := (v.get "tool").text?
    part := (v.get "match").text?
    replies := (v.get "replies").items.map Answer.ofJson }

/-- The name of a tool without its model. -/
def toolName (toolId : String) : String := (Text.splitAt ':' toolId).headD ""

/-- The rule fits a call. -/
def fits (r : ScriptRule) (c : Call) : Bool :=
  (match r.tool with
    | some t => t == toolName c.tool.toolId
    | none => true) &&
  (match r.part with
    | some p => Text.containsText c.lastText p
    | none => true)

end ScriptRule

/-- Rules, and the count of the calls that were made before the rules came into force. -/
structure Script where
  /-- The rules, in order. -/
  rules : List ScriptRule
  /-- The count of earlier calls. -/
  since : Nat := 0

namespace Script

/-- The position of the first rule that fits a call. -/
def ruleFor? (s : Script) (c : Call) : Option Nat :=
  (List.range s.rules.length).find? fun i =>
    match s.rules[i]? with
    | some r => r.fits c
    | none => false

/-- The answer to a call that no rule fits. -/
def noRule : Answer := ⟨.status "error" (some "no rule"), false⟩

/-- The reply of a rule after it was used some times. -/
def ScriptRule.replyAfter (r : ScriptRule) (used : Nat) : Answer :=
  match r.replies[used]? with
  | some a => a
  | none => r.replies.getLast?.getD noRule

/-- The endpoint of a script. -/
def endpoint (s : Script) : Endpoint := fun earlier c =>
  match s.ruleFor? c with
  | none => noRule
  | some i =>
      let mine := earlier.take (earlier.length - s.since)
      let used := (mine.filter fun d => s.ruleFor? d == some i).length
      match s.rules[i]? with
      | some r => ScriptRule.replyAfter r used
      | none => noRule

end Script

end IntentBuild
