import IntentBuild.Text.Search

/-!
# Paths

A path is a row of names below the root or below the working directory.  Its text is kept in
normal form: repeated separators and names `.` collapse, and names `..` stay.  Two separators at
the start, and no more, make a root of their own.
-/

namespace IntentBuild

/-- What a path starts from. -/
inductive Anchor where
  /-- The working directory. -/
  | none
  /-- The root. -/
  | root
  /-- The root written with two separators. -/
  | double
deriving DecidableEq, Repr, Inhabited

/-- A path in normal form. -/
structure Path where
  /-- What the path starts from. -/
  anchor : Anchor
  /-- The names, none of them empty or `.`. -/
  names : List String
deriving DecidableEq, Repr, Inhabited

namespace Path

/-- The anchor that a text starts with. -/
def anchorOf (cs : List Char) : Anchor :=
  match cs with
  | '/' :: '/' :: '/' :: _ => .root
  | '/' :: '/' :: _ => .double
  | '/' :: _ => .root
  | _ => .none

/-- The path that a text spells. -/
def ofText (s : String) : Path :=
  { anchor := anchorOf s.toList
    names := (Text.splitAt '/' s).filter fun n => n != "" && n != "." }

/-- The text of an anchor. -/
def Anchor.text : Anchor → String
  | .none => ""
  | .root => "/"
  | .double => "//"

/-- The text of a path. -/
def text (p : Path) : String :=
  if p.anchor == .none && p.names.isEmpty then "."
  else Anchor.text p.anchor ++ Text.joinWith "/" p.names

/-- The path starts from the root. -/
def isAbsolute (p : Path) : Bool := p.anchor != .none

/-- The second path seen from the first one. -/
def join (p q : Path) : Path :=
  if q.isAbsolute then q else { p with names := p.names ++ q.names }

/-- The path of a name inside a path, where the name may itself be a path. -/
def child (p : Path) (s : String) : Path := p.join (ofText s)

/-- The directory that holds the path. -/
def parent (p : Path) : Path := { p with names := p.names.dropLast }

/-- The last name, or the empty text. -/
def name (p : Path) : String := p.names.getLastD ""

/-- The ending of the last name from its last point on.  A point at either end of the name
starts no ending. -/
def suffix (p : Path) : String :=
  let cs := p.name.toList
  match Text.findIn? ['.'] cs.reverse with
  | some fromEnd =>
      let i := cs.length - 1 - fromEnd
      if 0 < i && fromEnd != 0 then String.ofList (cs.drop i) else ""
  | none => ""

/-- Resolves the names `..` of a path from the root. -/
def resolveNames (names : List String) : List String :=
  names.foldl (fun acc n => if n == ".." then acc.dropLast else acc ++ [n]) []

/-- The path from the root that a path means in a working directory, without names `..`. -/
def resolve (p workingDirectory : Path) : Path :=
  { anchor := .root, names := resolveNames (workingDirectory.join p).names }

/-- The target extension of an intent file, the last but one part of its name. -/
def targetExtension? (p : Path) : Option String :=
  match (Text.splitAt '.' p.name).reverse with
  | _ :: target :: _ :: _ => if target == "" then none else some target
  | _ => none

/-- The path of the source file that an intent file is compiled to. -/
def withoutIntentSuffix (relative : String) : String :=
  if Text.finishesWith relative ".md" then Text.dropLastChars 3 relative else relative

example : (ofText "a//b/./c/").text = "a/b/c" := by decide +kernel
example : (ofText "").text = "." := by decide +kernel
example : (ofText "///a").text = "/a" := by decide +kernel
example : (ofText "calc.ts.md").targetExtension? = some "ts" := by decide +kernel
example : (ofText "a/.md").suffix = "" := by decide +kernel

end Path

end IntentBuild
