import IntentBuild.Conversation.Endpoint
import IntentBuild.Conversation.Reply

/-!
# Chat models

A chat client opens a model for every combination of name, temperature and time limit that it
meets, and uses it again afterwards.  The model is asked for a JSON object.
-/

namespace IntentBuild

/-- The settings that a model is opened with. -/
structure ModelSettings where
  /-- The name. -/
  name : String
  /-- The sampling temperature. -/
  temperature : Quantity
  /-- The time that a call may take, in seconds. -/
  timeout : Int
deriving DecidableEq, Repr

namespace ModelSettings

/-- The settings for a tool. -/
def ofTool (t : ToolConfig) : ModelSettings := ⟨t.modelName, t.temperature, t.timeout⟩

/-- The two settings ask for the same model. -/
def same (a b : ModelSettings) : Bool :=
  a.name == b.name && a.temperature.equals b.temperature && a.timeout == b.timeout

/-- What every model is asked for: a reply that is a JSON object. -/
def replyFormat : Json := .obj [("response_format", .obj [("type", .str "json_object")])]

/-- The settings as a JSON object. -/
def toJson (s : ModelSettings) : Json :=
  .obj [("model_name", .str s.name), ("temperature", s.temperature.toJson),
    ("timeout", .int s.timeout), ("bind", replyFormat)]

end ModelSettings

/-- The models that a client has opened, in order. -/
structure ChatClient where
  /-- The settings of the models. -/
  models : List ModelSettings := []

/-- What a model answers. -/
structure ChatReply where
  /-- The text. -/
  text : String
  /-- How many tokens the call had. -/
  inputTokens : Int
  /-- How many tokens the answer has. -/
  outputTokens : Int
deriving DecidableEq, Repr

/-- The reply as a JSON object. -/
def ChatReply.toJson (r : ChatReply) : Json :=
  .obj [("texts", .ofStrings [r.text]), ("input", .int r.inputTokens),
    ("output", .int r.outputTokens), ("status", .str "ok")]

namespace ChatClient

/-- The position of the model for some settings, and the client after it was opened. -/
def modelFor (c : ChatClient) (s : ModelSettings) : Nat × ChatClient :=
  match c.models.findIdx? s.same with
  | some i => (i, c)
  | none => (c.models.length, ⟨c.models ++ [s]⟩)

/-- A count of tokens, which may be absent.  Of a number with a fraction the whole part counts. -/
def tokens (usage : Members) (key : String) : Int :=
  match Assoc.get? key usage with
  | some (.int i) => i
  | some (.bool b) => if b then 1 else 0
  | some (.float x) => (x.ratio?.map fun (num, den) => num.tdiv den).getD 0
  | some (.str s) => (Text.readInteger? s).getD 0
  | _ => 0

/-- The reply with a content and an account of the tokens. -/
def reply (content : Json) (usage : Members) : Except ReplyFault ChatReply :=
  (Reply.contentText content).map fun text =>
    ⟨text, tokens usage "input_tokens", tokens usage "output_tokens"⟩

end ChatClient

end IntentBuild
