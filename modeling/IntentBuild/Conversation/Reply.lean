import IntentBuild.Json.Parser
import IntentBuild.Result.Catalogue

/-!
# Replies of a model

A model answers with a text, or with a list of blocks whose texts are joined.  The text should
hold one JSON object.  It is looked for in three places, in this order: the whole text, a fenced
block, and the span from the first opening brace to the last closing one.

The object is then validated against the schema of the stage.
-/

namespace IntentBuild

/-- Why a reply gives no result. -/
inductive ReplyFault where
  /-- The text is blank. -/
  | empty
  /-- The text holds no object.  Its start is kept for the message. -/
  | noObject (preview : String)
  /-- The content of the reply is neither a text nor a list. -/
  | content (kind : String)
  /-- What should be validated is no object. -/
  | payload (schema kind : String)
  /-- The object does not fit the schema. -/
  | invalid (fault : Invalid)
deriving DecidableEq, Repr

/-- The wording of a fault. -/
def ReplyFault.message : ReplyFault → String
  | .empty => "Model returned empty output; expected a JSON object"
  | .noObject preview => "Model output did not contain a JSON object: " ++ preview
  | .content kind => "Unsupported response content type: " ++ kind
  | .payload schema kind =>
      "Structured output for " ++ schema ++ " returned unsupported payload type " ++ kind
  | .invalid v =>
      "Structured output validation failed for " ++ v.schema ++ ": " ++ v.message

namespace Reply

/-- The name of the kind of a value, for messages. -/
def kindName : Json → String
  | .null => "NoneType"
  | .bool _ => "bool"
  | .int _ => "int"
  | .float _ => "float"
  | .str _ => "str"
  | .arr _ => "list"
  | .obj _ => "dict"

/-- The text of a block of a reply. -/
def blockText : Json → String
  | .str s => s
  | .obj ms => ((Assoc.get? "text" ms).bind Json.text?).getD ""
  | _ => ""

/-- The text of a reply. -/
def contentText : Json → Except ReplyFault String
  | .str s => .ok s
  | .arr blocks => .ok (Text.joinWith "" (blocks.map blockText))
  | v => .error (.content (kindName v))

/-- The members of the object that a row of characters spells. -/
def object? (cs : List Char) : Option Members := (Json.parseChars? cs).bind Json.members?

/-- Three backquotes stand at the start of the text.  The rest follows. -/
def fence? : List Char → Option (List Char)
  | '\x60' :: '\x60' :: '\x60' :: rest => some rest
  | _ => none

/-- The text after the word that may follow an opening fence. -/
def afterWord : List Char → List Char
  | 'j' :: 's' :: 'o' :: 'n' :: rest => rest
  | cs => cs

/-- The text up to the first closing brace that a closing fence follows, blanks between them
allowed. -/
def untilFence? : List Char → Option (List Char)
  | [] => none
  | c :: rest =>
      if c == '}' && (fence? (rest.dropWhile Text.isBlank)).isSome then some [c]
      else (untilFence? rest).map (c :: ·)

/-- The object between two fences, when the text begins with a fence. -/
def fencedHere? (cs : List Char) : Option (List Char) :=
  match fence? cs with
  | none => none
  | some rest =>
      match (afterWord rest).dropWhile Text.isBlank with
      | '{' :: body => (untilFence? body).map ('{' :: ·)
      | _ => none

/-- The object between the first two fences that hold one. -/
def fenced? : List Char → Option (List Char)
  | [] => none
  | c :: rest =>
      match fencedHere? (c :: rest) with
      | some found => some found
      | none => fenced? rest

/-- The text from the first opening brace to the last closing one. -/
def braced? (cs : List Char) : Option (List Char) :=
  let start := cs.dropWhile (· != '{')
  let span := (start.reverse.dropWhile (· != '}')).reverse
  if span.isEmpty then none else some span

/-- The object that a reply holds. -/
def extract (text : String) : Except ReplyFault Members :=
  let body := Text.trimBothBy Text.isBlank text.toList
  if body.isEmpty then .error .empty
  else
    match object? body with
    | some ms => .ok ms
    | none =>
        match ((fenced? body).toList ++ (braced? body).toList).findSome? object? with
        | some ms => .ok ms
        | none =>
            .error (.noObject (Text.replaceChar '\n' ' ' (String.ofList (body.take 220))))

/-- Validates an object against a schema. -/
def validate {α : Type} (schema : ResultSchema α) (payload : Json) : Except ReplyFault α :=
  match payload with
  | .obj ms =>
      match (schema.read (.obj ms)).validated schema.name with
      | .ok a => .ok a
      | .error v => .error (.invalid v)
  | v => .error (.payload schema.name (kindName v))

/-- Validates a value that has a shape already.  It is kept when it fits. -/
def validateShaped (shape : Shape) (v : Shaped) : Except ReplyFault Shaped :=
  if v.fits shape then .ok v else validate shape.schema v.toJson

end Reply

end IntentBuild
