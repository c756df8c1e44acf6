import IntentBuild.Json.Basic
import IntentBuild.Path
import IntentBuild.Text.Quoted
import IntentBuild.Time.Stamp

/-!
# Nodes, edges and generation records

The build graph has a node for each directory, each file and each piece of derived data.  An edge
leads from a node to another one.  A generation record keeps the last validated output for one
prompt under one tool, and belongs to a node of derived data.

Each of them has an identifier and a key.  The key of a node is its parent, its instance, its
type and its name.  The key of an edge is its ends, its type and its name.  The key of a record
is its node, its tool and the digest of its prompt.
-/

namespace IntentBuild

/-- What a node stands for. -/
inductive NodeType where
  /-- A project. -/
  | project
  /-- The directory of the specifications. -/
  | specsRoot
  /-- A directory below it. -/
  | specDir
  /-- A specification. -/
  | specFile
  /-- The directory of the intent files. -/
  | intentRoot
  /-- A directory below it. -/
  | intentDir
  /-- An intent file. -/
  | intentFile
  /-- The directory of the source files. -/
  | sourceRoot
  /-- A directory below it. -/
  | sourceDir
  /-- A source file. -/
  | sourceFile
  /-- A resolved tech stack. -/
  | techStackData
  /-- A lowered specification. -/
  | loweringData
  /-- An indexed intent file. -/
  | indexedData
  /-- A compiled intent file. -/
  | compilerData
  /-- The dependencies of a project. -/
  | deps
  /-- The extensions of a project. -/
  | extensions
  /-- An extension. -/
  | extension
deriving DecidableEq, Repr

namespace NodeType

/-- All types of nodes. -/
def all : List NodeType :=
  [project, specsRoot, specDir, specFile, intentRoot, intentDir, intentFile, sourceRoot, sourceDir,
    sourceFile, techStackData, loweringData, indexedData, compilerData, deps, extensions, extension]

/-- The words of a type. -/
def text : NodeType → String
  | .project => "project"
  | .specsRoot => "specs root"
  | .specDir => "spec dir"
  | .specFile => "spec file"
  | .intentRoot => "intent root"
  | .intentDir => "intent dir"
  | .intentFile => "intent file"
  | .sourceRoot => "source root"
  | .sourceDir => "source dir"
  | .sourceFile => "source file"
  | .techStackData => "tech stack data"
  | .loweringData => "intent lowering data"
  | .indexedData => "indexed data"
  | .compilerData => "compiler data"
  | .deps => "deps"
  | .extensions => "extensions"
  | .extension => "extension"

/-- The type of some words. -/
def ofText? (s : String) : Option NodeType := all.find? fun t => t.text == s

end NodeType

/-- Whether a node is in use. -/
inductive NodeStatus where
  /-- The node is in use. -/
  | active
  /-- The node is out of use. -/
  | inactive
deriving DecidableEq, Repr

namespace NodeStatus

/-- The word of a status. -/
def text : NodeStatus → String
  | .active => "active"
  | .inactive => "inactive"

/-- The status of a word. -/
def ofText? (s : String) : Option NodeStatus := [active, inactive].find? fun t => t.text == s

end NodeStatus

/-- What an edge says about its ends. -/
inductive EdgeType where
  /-- The source is implemented by the target. -/
  | implements
  /-- The source depends on a name of the target. -/
  | dependsOn
deriving DecidableEq, Repr

namespace EdgeType

/-- The words of a type. -/
def text : EdgeType → String
  | .implements => "implements"
  | .dependsOn => "depends on"

/-- The type of some words. -/
def ofText? (s : String) : Option EdgeType := [implements, dependsOn].find? fun t => t.text == s

end EdgeType

/-- The key of a node. -/
structure NodeKey where
  /-- The identifier of the parent, none for a root. -/
  parent : Option String
  /-- The instance. -/
  instanceId : String
  /-- The type. -/
  type : NodeType
  /-- The name. -/
  name : String
deriving DecidableEq, Repr

/-- A text between quotes, or the word for none. -/
def quotedOrNone : Option String → String
  | some s => Text.quoted s
  | none => "None"

/-- The text of a key, for messages. -/
def NodeKey.render (k : NodeKey) : String :=
  "(" ++ Text.joinWith ", " [quotedOrNone k.parent, Text.quoted k.instanceId,
    Text.quoted k.type.text, Text.quoted k.name] ++ ")"

/-- A node of the build graph. -/
structure Node where
  /-- The identifier. -/
  id : String
  /-- The identifier of the parent, none for a root. -/
  parent : Option String
  /-- The instance. -/
  instanceId : String
  /-- Whether the node is in use. -/
  status : NodeStatus
  /-- The type. -/
  type : NodeType
  /-- The name. -/
  name : String
  /-- The content. -/
  content : Option String
  /-- The digest of the content. -/
  contentHash : Option String
  /-- The structured content. -/
  json : Option Members
  /-- The digest of the structured content. -/
  jsonHash : Option String
  /-- The time of the input that the content was made from. -/
  contentUpdated : Option Stamp
  /-- The time of the creation. -/
  created : Stamp
  /-- The time of the last change. -/
  updated : Stamp
deriving Repr

namespace Node

/-- The key of a node. -/
def key (n : Node) : NodeKey := ⟨n.parent, n.instanceId, n.type, n.name⟩

/-- The structured content, empty when there is none. -/
def members (n : Node) : Members := n.json.getD []

/-- A value that counts as no path. -/
def isBlankPath : Json → Bool
  | .null => true
  | .bool b => !b
  | .int i => i == 0
  | .float x => x.isZero
  | .str s => s == ""
  | .arr vs => vs.isEmpty
  | .obj ms => ms.isEmpty

/-- What a node says about its path. -/
inductive PathEntry where
  /-- Nothing. -/
  | absent
  /-- A path. -/
  | path (value : Path)
  /-- Something that is no path. -/
  | illTyped

/-- The path that a node keeps. -/
def pathEntry (n : Node) : PathEntry :=
  match Assoc.get? "path" n.members with
  | none => .absent
  | some v =>
      if isBlankPath v then .absent
      else match v with
        | .str s => .path (Path.ofText s)
        | _ => .illTyped

end Node

/-- The key of an edge. -/
structure EdgeKey where
  /-- The identifier of the node that the edge comes from. -/
  source : String
  /-- The identifier of the node that the edge leads to. -/
  target : String
  /-- The type. -/
  type : EdgeType
  /-- The name. -/
  name : String
deriving DecidableEq, Repr

/-- The text of a key, for messages. -/
def EdgeKey.render (k : EdgeKey) : String :=
  "(" ++ Text.joinWith ", " [Text.quoted k.source, Text.quoted k.target, Text.quoted k.type.text,
    Text.quoted k.name] ++ ")"

/-- An edge of the build graph. -/
structure Edge where
  /-- The identifier. -/
  id : String
  /-- The identifier of the node that the edge comes from. -/
  source : String
  /-- The identifier of the node that the edge leads to. -/
  target : String
  /-- The type. -/
  type : EdgeType
  /-- The name. -/
  name : String
  /-- The time of the creation. -/
  created : Stamp
deriving DecidableEq, Repr

/-- The key of an edge. -/
def Edge.key (e : Edge) : EdgeKey := ⟨e.source, e.target, e.type, e.name⟩

/-- The key of a generation record. -/
structure RecordKey where
  /-- The identifier of the node. -/
  node : String
  /-- The identifier of the tool. -/
  tool : String
  /-- The digest of the prompt. -/
  promptHash : String
deriving DecidableEq, Repr

/-- The last validated output for a prompt. -/
structure GenerationRecord where
  /-- The identifier. -/
  id : String
  /-- The identifier of the node that the record belongs to. -/
  nodeId : String
  /-- The identifier of the tool. -/
  toolId : String
  /-- The digest of the prompt. -/
  promptHash : String
  /-- The prompt. -/
  prompt : String
  /-- The text of the output. -/
  content : String
  /-- The structured output. -/
  json : Option Members
  /-- The time of the creation. -/
  created : Stamp
deriving Repr

/-- The key of a record. -/
def GenerationRecord.key (r : GenerationRecord) : RecordKey := ⟨r.nodeId, r.toolId, r.promptHash⟩

end IntentBuild
