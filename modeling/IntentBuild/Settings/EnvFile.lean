import IntentBuild.Assoc
import IntentBuild.Settings.Basic

/-!
# Files of environment variables

A file of environment variables is a row of bindings `NAME=value`.  A value stands bare up to
the end of its line, or between quotes, where it may go on over several lines.  A word `export`
may stand before a name, and `#` begins a comment.  A line of any other form is skipped.

A value may name other variables as `${NAME}`, or as `${NAME:-default}`.  Variables of the
environment go before those of the file.
-/

namespace IntentBuild.EnvFile

/-- A binding, or a stretch of the file without one. -/
structure Binding where
  /-- The name, unless the stretch holds no binding. -/
  name : Option String
  /-- The value, unless the name stands alone. -/
  value : Option String
  /-- The stretch of the file. -/
  source : List Char

/-- The characters that end a line. -/
def isBreak (c : Char) : Bool := c == '\n' || c == '\r'

/-- A blank within a line. -/
def isLineBlank (c : Char) : Bool := Text.isBlank c && !isBreak c

/-- The text after blanks within the line. -/
def skipBlanks (cs : List Char) : List Char := cs.dropWhile isLineBlank

/-- The text after the word `export` and the blanks that follow it. -/
def afterExport (cs : List Char) : List Char :=
  match cs with
  | 'e' :: 'x' :: 'p' :: 'o' :: 'r' :: 't' :: c :: rest =>
      if isLineBlank c then skipBlanks (c :: rest) else cs
  | _ => cs

/-- A name and the rest.  A comment has no name. -/
def name? (cs : List Char) : Option (Option String × List Char) :=
  match cs with
  | '#' :: _ => some (none, cs)
  | '\'' :: rest =>
      let (body, after) := rest.span (· != '\'')
      match after with
      | '\'' :: r => if body.isEmpty then none else some (some (String.ofList body), r)
      | _ => none
  | _ =>
      let (body, after) := cs.span fun c => c != '=' && c != '#' && !Text.isBlank c
      if body.isEmpty then none else some (some (String.ofList body), after)

/-- The characters up to the closing quote, and the rest.  A quote after a backslash does not
close the value. -/
def closedBy (q : Char) : List Char → Option (List Char × List Char)
  | [] => none
  | [c] => if c == q then some ([], []) else none
  | c :: d :: rest =>
      if c == q then some ([], d :: rest)
      else if c == '\\' && d == q then
        match closedBy q rest with
        | some (body, after) => some (c :: d :: body, after)
        | none => some ([c], rest)
      else (closedBy q (d :: rest)).map fun r => (c :: r.1, r.2)

/-- The character that a letter after a backslash stands for, between double quotes. -/
def doubleEscape? (c : Char) : Option Char :=
  if c == '\\' || c == '\'' || c == '"' then some c
  else if c == 'a' then some '\x07'
  else if c == 'b' then some '\x08'
  else if c == 'f' then some '\x0c'
  else if c == 'n' then some '\n'
  else if c == 'r' then some '\r'
  else if c == 't' then some '\t'
  else if c == 'v' then some '\x0b'
  else none

/-- The character that a letter after a backslash stands for, between single quotes. -/
def singleEscape? (c : Char) : Option Char := if c == '\\' || c == '\'' then some c else none

/-- Puts characters in place of escapes. -/
def unescape (escape? : Char → Option Char) : List Char → List Char
  | [] => []
  | [c] => [c]
  | c :: d :: rest =>
      if c == '\\' then
        match escape? d with
        | some e => e :: unescape escape? rest
        | none => c :: unescape escape? (d :: rest)
      else c :: unescape escape? (d :: rest)

/-- The text before a comment that begins after a blank. -/
def beforeComment : List Char → List Char
  | [] => []
  | c :: rest =>
      if Text.isBlank c && (rest.dropWhile Text.isBlank).head? == some '#' then []
      else c :: beforeComment rest

/-- A value without quotes, and the rest. -/
def bareValue (cs : List Char) : String × List Char :=
  let (line, after) := cs.span fun c => !isBreak c
  let kept := ((beforeComment line).reverse.dropWhile Text.isBlank).reverse
  (String.ofList kept, after)

/-- A value and the rest. -/
def value? (cs : List Char) : Option (String × List Char) :=
  match cs with
  | [] => some ("", [])
  | '\'' :: rest =>
      (closedBy '\'' rest).map fun r => (String.ofList (unescape singleEscape? r.1), r.2)
  | '"' :: rest =>
      (closedBy '"' rest).map fun r => (String.ofList (unescape doubleEscape? r.1), r.2)
  | c :: _ => if isBreak c then some ("", cs) else some (bareValue cs)

/-- The text after a comment, if one stands here after blanks. -/
def skipComment (cs : List Char) : List Char :=
  match skipBlanks cs with
  | '#' :: rest => rest.dropWhile fun c => !isBreak c
  | _ => cs

/-- The text after the end of the line, if nothing but blanks stands before it. -/
def endOfLine? (cs : List Char) : Option (List Char) :=
  match skipBlanks cs with
  | [] => some []
  | '\r' :: '\n' :: rest => some rest
  | '\n' :: rest => some rest
  | '\r' :: rest => some rest
  | _ => none

/-- The text after the end of the line. -/
def skipLine (cs : List Char) : List Char :=
  match cs.dropWhile fun c => !isBreak c with
  | [] => []
  | _ :: rest => rest

/-- What follows the name: a value, if there is one, or else the place of the fault. -/
def afterName (cs : List Char) : Except (List Char) (Option String × List Char) :=
  let cs := skipBlanks cs
  match cs with
  | '=' :: rest =>
      let start := skipBlanks rest
      match value? start with
      | some (v, after) => .ok (some v, after)
      | none => .error start
  | _ => .ok (none, cs)

/-- The name and the value of the binding at the start of the text, if there is one, and the
rest. -/
def bindingHere (cs : List Char) : Option String × Option String × List Char :=
  let start := cs.dropWhile Text.isBlank
  if start.isEmpty then (none, none, [])
  else
    let start := afterExport start
    match name? start with
    | none => (none, none, skipLine start)
    | some (name, rest) =>
        match afterName rest with
        | .error place => (none, none, skipLine place)
        | .ok (value, rest) =>
            let after := skipComment rest
            match endOfLine? after with
            | some r => (name, value, r)
            | none => (none, none, skipLine after)

/-- The bindings of a text.  The fuel bounds their count. -/
def bindingsFrom : (fuel : Nat) → List Char → List Binding
  | 0, _ => []
  | fuel + 1, cs =>
      if cs.isEmpty then []
      else
        let (name, value, rest) := bindingHere cs
        ⟨name, value, cs.take (cs.length - rest.length)⟩ :: bindingsFrom fuel rest

/-- The bindings of a text, in order.  Their stretches make up the text. -/
def bindings (text : String) : List Binding :=
  let cs := text.toList
  bindingsFrom cs.length cs

/-- The name and the default of a reference at the start of the text, and the rest. -/
def reference? (cs : List Char) : Option (String × String × List Char) :=
  match cs with
  | '$' :: '{' :: rest =>
      let (name, after) := rest.span fun c => c != '}' && c != ':'
      match after with
      | '}' :: r => some (String.ofList name, "", r)
      | ':' :: '-' :: r =>
          let (default, after) := r.span (· != '}')
          match after with
          | '}' :: r => some (String.ofList name, String.ofList default, r)
          | _ => none
      | _ => none
  | _ => none

/-- Puts values in place of references.  The fuel bounds the length of the text. -/
def expand (get? : String → Option String) : (fuel : Nat) → List Char → List Char
  | 0, _ => []
  | fuel + 1, cs =>
      match cs with
      | [] => []
      | c :: rest =>
          match reference? cs with
          | some (name, default, after) =>
              ((get? name).getD default).toList ++ expand get? fuel after
          | none => c :: expand get? fuel rest

/-- The value of a name among the values of a file so far.  A name without value counts as
empty. -/
def known? (m : List (String × Option String)) (name : String) : Option String :=
  (Assoc.get? name m).map fun v => v.getD ""

/-- The values of a file, with references resolved. -/
def values (env : Environment) (text : String) : List (String × Option String) :=
  (bindings text).foldl
    (fun m b =>
      match b.name with
      | none => m
      | some name =>
          let get? (n : String) : Option String := (env.get? n).orElse fun _ => known? m n
          let value := b.value.map fun v =>
            let cs := v.toList
            String.ofList (expand get? (cs.length + 1) cs)
          Assoc.set name value m)
    []

/-- The environment with the variables of a file that it does not have yet. -/
def load (env : Environment) (text : String) : Environment :=
  env ++ (values env text).filterMap fun e =>
    match e.2 with
    | some v => if (env.get? e.1).isSome then none else some (e.1, v)
    | none => none

/-- A value between single quotes. -/
def quotedValue (value : String) : List Char :=
  '\'' :: (value.toList.flatMap fun c => if c == '\'' then ['\\', '\''] else [c]) ++ ['\'']

/-- The text of a file with a variable set.  Every binding of the name is replaced, and a new
name goes to the end on a line of its own. -/
def setValue (text name value : String) : String :=
  let line := name.toList ++ '=' :: (quotedValue value ++ ['\n'])
  let bs := bindings text
  let bound := bs.any fun b => b.name == some name
  let kept := bs.flatMap fun b => if b.name == some name then line else b.source
  let needsBreak :=
    match bs.getLast? with
    | some b => b.source.getLast? != some '\n'
    | none => false
  String.ofList
    (if bound then kept else kept ++ (if needsBreak then ['\n'] else []) ++ line)

end IntentBuild.EnvFile
