import IntentBuild.Text.Digit
import IntentBuild.Text.Search

/-!
# Command line arguments

A command line is a row of arguments.  An option may stand before the command, and every command
takes `--help`.  Options may be shortened as long as they stay clear, and may have their value
after `=`.

An argument that begins with `-` is an option, unless it is a negative number or holds a blank.
After the argument `--` all arguments are taken as they are.  A call for help counts as soon as it
is reached, before faults that only show at the end of the line.
-/

namespace IntentBuild.CommandLine

/-- A command with its arguments. -/
inductive Command where
  /-- Sets up a project in a directory. -/
  | projectInit (name path : String)
  /-- Lists the projects. -/
  | projectList
  /-- Builds a project. -/
  | build (name : String)
  /-- Compares the file of the dependencies of a project with the graph. -/
  | verify (name : String)
  /-- Installs an extension from a file. -/
  | extensionsLoad (name file : String)
  /-- Lists the extensions of a project. -/
  | extensionsList (name : String)
  /-- Removes an extension from a project. -/
  | extensionsRemove (name extension : String)
  /-- Looks for the key of the models. -/
  | credentialsCheck
  /-- Sets a variable in the file of environment variables. -/
  | credentialsSet (name value : String)
deriving DecidableEq, Repr

/-- The word of a command, for messages. -/
def Command.word : Command → String
  | .projectInit .. | .projectList => "project"
  | .build _ => "build"
  | .verify _ => "verify"
  | .extensionsLoad .. | .extensionsList _ | .extensionsRemove .. => "extensions"
  | .credentialsCheck | .credentialsSet .. => "credentials"

/-- Why a command line gives no command. -/
inductive Refusal where
  /-- Help is asked for. -/
  | help
  /-- The arguments are wrong. -/
  | usage
deriving DecidableEq, Repr

/-- The exit code of a refusal. -/
def Refusal.code : Refusal → Nat
  | .help => 0
  | .usage => 2

/-- What an argument is, seen from the options of a command. -/
inductive Kind where
  /-- A value. -/
  | value
  /-- A call for help. -/
  | help
  /-- A call for help with a value, which it does not take. -/
  | helpWithValue
  /-- The level of the log, with its value if it has one. -/
  | level (value : Option String)
  /-- An option that the command does not have. -/
  | unknown
deriving DecidableEq, Repr

/-- A digit of any script. -/
def isDigit (c : Char) : Bool := (Text.digitValue? c).isSome

/-- A negative number. -/
def isNegativeNumber (cs : List Char) : Bool :=
  match cs with
  | '-' :: rest =>
      match rest.span isDigit with
      | (ds, []) => !ds.isEmpty
      | (_, '.' :: fraction) => !fraction.isEmpty && fraction.all isDigit
      | _ => false
  | _ => false

/-- An argument split at its first `=`. -/
def splitValue (s : String) : String × Option String :=
  match s.toList.span (· != '=') with
  | (name, '=' :: value) => (String.ofList name, some (String.ofList value))
  | _ => (s, none)

/-- An argument that no option of the command fits. -/
def unfit (s : String) : Kind :=
  if isNegativeNumber s.toList || s.toList.contains ' ' then .value else .unknown

/-- A long option, which may be shortened. -/
def longKind (hasLevel : Bool) (s : String) : Kind :=
  let (name, value) := splitValue s
  if Text.beginsWith "--help" name then
    if value.isSome then .helpWithValue else .help
  else if hasLevel && Text.beginsWith "--log-level" name then .level value
  else unfit s

/-- A short call for help may be repeated in one argument, also after `=`.  Anything else after
it is a value. -/
def shortHelp (rest : List Char) : Kind :=
  match rest with
  | '=' :: more => if !more.isEmpty && more.all (· == 'h') then .help else .helpWithValue
  | _ => if rest.all (· == 'h') then .help else .helpWithValue

/-- What an argument is. -/
def kindOf (hasLevel : Bool) (s : String) : Kind :=
  match s.toList with
  | '-' :: '-' :: _ => longKind hasLevel s
  | ['-'] => .value
  | '-' :: 'h' :: rest => shortHelp rest
  | '-' :: _ => unfit s
  | _ => .value

/-- The values of a command without commands below it, and whether an unknown option stands among
them. -/
def leafValues (takesValues : Bool) : List String → Except Refusal (List String × Bool)
  | [] => .ok ([], false)
  | "--" :: rest => .ok (rest, !takesValues)
  | s :: rest =>
      match kindOf false s with
      | .help => .error .help
      | .helpWithValue => .error .usage
      | .value => (leafValues takesValues rest).map fun r => (s :: r.1, r.2)
      | _ => (leafValues takesValues rest).map fun r => (r.1, true)

/-- Exactly `n` values, and no unknown option. -/
def leaf (n : Nat) (args : List String) : Except Refusal (List String) := do
  let (values, unknown) ← leafValues (n != 0) args
  if unknown || values.length != n then .error .usage else .ok values

/-- The first value, which chooses what comes next, and the arguments after it.  The flag says
whether an unknown option stands before it. -/
def choice : List String → Except Refusal (Bool × String × List String)
  | [] => .error .usage
  | "--" :: _ => .error .usage
  | s :: rest =>
      match kindOf false s with
      | .help => .error .help
      | .helpWithValue => .error .usage
      | .value => .ok (false, s, rest)
      | _ => (choice rest).map fun r => (true, r.2)

/-- A command whose unknown options before it refuse it in the end. -/
def guarded (unknown : Bool) (x : Except Refusal Command) : Except Refusal Command :=
  match x with
  | .ok c => if unknown then .error .usage else .ok c
  | .error e => .error e

/-- A command with `n` values. -/
def withValues (n : Nat) (make : List String → Option Command) (args : List String) :
    Except Refusal Command := do
  match make (← leaf n args) with
  | some c => .ok c
  | none => .error .usage

/-- The commands on projects. -/
def projectCommand (args : List String) : Except Refusal Command := do
  let (unknown, action, rest) ← choice args
  guarded unknown <|
    if action == "init" then
      withValues 2 (fun | [n, p] => some (.projectInit n p) | _ => none) rest
    else if action == "list" then withValues 0 (fun _ => some .projectList) rest
    else .error .usage

/-- The commands on extensions. -/
def extensionsCommand (args : List String) : Except Refusal Command := do
  let (unknown, action, rest) ← choice args
  guarded unknown <|
    if action == "load" then
      withValues 2 (fun | [n, f] => some (.extensionsLoad n f) | _ => none) rest
    else if action == "list" then
      withValues 1 (fun | [n] => some (.extensionsList n) | _ => none) rest
    else if action == "remove" then
      withValues 2 (fun | [n, e] => some (.extensionsRemove n e) | _ => none) rest
    else .error .usage

/-- The commands on credentials. -/
def credentialsCommand (args : List String) : Except Refusal Command := do
  let (unknown, action, rest) ← choice args
  guarded unknown <|
    if action == "check" then withValues 0 (fun _ => some .credentialsCheck) rest
    else if action == "set" then
      withValues 2 (fun | [k, v] => some (.credentialsSet k v) | _ => none) rest
    else .error .usage

/-- The command of a word with the arguments after it. -/
def commandOf (word : String) (args : List String) : Except Refusal Command :=
  if word == "project" then projectCommand args
  else if word == "build" then withValues 1 (fun | [n] => some (.build n) | _ => none) args
  else if word == "verify" then withValues 1 (fun | [n] => some (.verify n) | _ => none) args
  else if word == "extensions" then extensionsCommand args
  else if word == "credentials" then credentialsCommand args
  else .error .usage

/-- The levels of the log. -/
def levels : List String := ["DEBUG", "INFO", "WARNING", "ERROR", "CRITICAL"]

/-- The command of a command line.  The flag says whether an unknown option came before. -/
def parseFrom (unknown : Bool) : List String → Except Refusal Command
  | [] => .error .usage
  | "--" :: _ => .error .usage
  | s :: rest =>
      match kindOf true s with
      | .help => .error .help
      | .helpWithValue => .error .usage
      | .value => guarded unknown (commandOf s rest)
      | .unknown => parseFrom true rest
      | .level (some v) => if levels.contains v then parseFrom unknown rest else .error .usage
      | .level none =>
          match rest with
          | v :: more => if levels.contains v then parseFrom unknown more else .error .usage
          | [] => .error .usage

/-- The command of a command line. -/
def parse (args : List String) : Except Refusal Command := parseFrom false args

example : (parse ["--log=INFO", "build", "demo"]).toOption = some (.build "demo") := by
  decide +kernel
example : (parse ["project", "--help", "x"]).toOption = none := by decide +kernel
example : (parse ["build", "demo", "x"]).toOption = none := by decide +kernel

end IntentBuild.CommandLine
