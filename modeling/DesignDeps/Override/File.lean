import DesignDeps.Text.Split
import DesignDeps.Yaml.Event
import DesignDeps.Yaml.Plain

/-!
# Override files

An override file is a YAML document that maps module names to paths. The key `include` is no module:
it lists further override files. A value without content excludes the module; a value that would be
read as a truth value or a number is refused, as is any nesting. Keys and listed files are taken by
their text, whatever it would be read as.
-/

namespace DesignDeps.Override

open Text Yaml

structure File where
  includes : List String
  /-- In ascending order of the names; the last value of a repeated name stays. -/
  entries : List (String × Option String)
  deriving DecidableEq, Inhabited

namespace File

def empty : File := ⟨[], []⟩

def includeKey : String := "include"

-- ---------------------------------------------------------------------------
-- Nodes that are referred to
-- ---------------------------------------------------------------------------

/-- An event of the document. Anchors and references are numbers. -/
inductive Node
  | alias (id : Nat)
  | scalar (anchor : Option Nat) (tag : Option String) (s : Scalar)
  | collection (anchor : Option Nat) (isMapping : Bool)
  | close
  deriving DecidableEq

def Node.anchor? : Node → Option Nat
  | .scalar anchor .. | .collection anchor _ => anchor
  | .alias _ | .close => none

/-- The number of an anchor is how many names there are when it is set, so one that is set again may
share its number with a later one. -/
def numberAnchor (names : List (String × Nat)) : Option String → Option Nat × List (String × Nat)
  | none => (none, names)
  | some name =>
    let id := names.length
    let others := names.filter (·.1 ≠ name)
    (some id, (name, id) :: others)

/-- The nodes of one document, and what follows it. A reference has to come after its anchor. -/
def nodesFrom (names : List (String × Nat)) : List Event → Except Fault (List Node × List Event)
  | [] => .ok ([], [])
  | .documentEnd :: events => .ok ([], events)
  | .documentStart :: events => nodesFrom names events
  | .alias name :: events => do
    match names.lookup name with
    | none => .error .undefinedAlias
    | some id =>
      let (nodes, rest) ← nodesFrom names events
      return (.alias id :: nodes, rest)
  | .scalar marks s :: events => do
    let (id, names) := numberAnchor names marks.anchor
    let (nodes, rest) ← nodesFrom names events
    return (.scalar id marks.tag s :: nodes, rest)
  | .sequenceStart marks :: events => do
    let (id, names) := numberAnchor names marks.anchor
    let (nodes, rest) ← nodesFrom names events
    return (.collection id false :: nodes, rest)
  | .mappingStart marks :: events => do
    let (id, names) := numberAnchor names marks.anchor
    let (nodes, rest) ← nodesFrom names events
    return (.collection id true :: nodes, rest)
  | .sequenceEnd :: events | .mappingEnd :: events => do
    let (nodes, rest) ← nodesFrom names events
    return (.close :: nodes, rest)

def target (document : List Node) (id : Nat) : List Node :=
  (document.foldl (fun (found, rest) node =>
    (if node.anchor? = some id then rest else found, rest.drop 1)) ([], document)).1

def deref (document : List Node) (nodes : List Node) : List Node :=
  match nodes with
  | .alias id :: _ => target document id
  | _ => nodes

-- ---------------------------------------------------------------------------
-- Values
-- ---------------------------------------------------------------------------

def coreTag (name : String) : String := "tag:yaml.org,2002:" ++ name

/-- The path that a scalar stands for, or none if it is null. -/
def pathOf (tag : Option String) (s : Scalar) : Except Fault (Option String) :=
  match tag with
  | some tag =>
    if tag = coreTag "null" then
      if PlainKind.isNull s.text then .ok none else .error .wrongShape
    else if [coreTag "bool", coreTag "int", coreTag "float"].contains tag then .error .wrongShape
    else if tag.toList.head? = some '!' then .error .wrongShape
    else .ok (some s.text)
  | none =>
    if s.isPlain then
      match PlainKind.of s.text with
      | .null => .ok none
      | .text => .ok (some s.text)
      | .bool | .number => .error .wrongShape
    else .ok (some s.text)

def textOf (document nodes : List Node) : Except Fault String :=
  match deref document nodes with
  | .scalar _ _ s :: _ => .ok s.text
  | _ => .error .wrongShape

/-- The scalars of a sequence up to its end. -/
def textsUntilClose (document : List Node) : List Node → Except Fault (List String)
  | [] => .error .wrongShape
  | .close :: _ => .ok []
  | node :: nodes => do
    let text ← textOf document (node :: nodes)
    return text :: (← textsUntilClose document nodes)

def listedFiles (document nodes : List Node) : Except Fault (List String) :=
  match deref document nodes with
  | .collection _ false :: nodes => textsUntilClose document nodes
  | .scalar _ _ s :: _ => if s.isPlain && s.text = "" then .ok [] else .error .wrongShape
  | _ => .error .wrongShape

-- ---------------------------------------------------------------------------
-- Reading
-- ---------------------------------------------------------------------------

structure Draft where
  includes : Option (List String)
  entries : List (String × Option String)

inductive Place
  | key
  | value (key : String)
  /-- In the list of files, which has been read. -/
  | listed

def readMapping (document : List Node) (draft : Draft) : Place → List Node → Except Fault Draft
  | _, [] => .error .wrongShape
  | .key, .close :: _ => .ok draft
  | .key, node :: nodes => do
    let key ← textOf document (node :: nodes)
    readMapping document draft (.value key) nodes
  | .value key, node :: nodes => do
    if key = includeKey then
      if draft.includes.isSome then .error .wrongShape
      else
        let files ← listedFiles document (node :: nodes)
        let place :=
          match node with
          | .collection .. => Place.listed
          | _ => .key
        readMapping document { draft with includes := some files } place nodes
    else
      match deref document (node :: nodes) with
      | .scalar _ tag s :: _ =>
        let path ← pathOf tag s
        readMapping document { draft with entries := (key, path) :: draft.entries } .key nodes
      | _ => .error .wrongShape
  | .listed, .close :: nodes => readMapping document draft .key nodes
  | .listed, _ :: nodes => readMapping document draft .listed nodes

/-- Puts an entry at its place, or over an earlier one of the same name. -/
def insertEntry (name : String) (path : Option String) :
    List (String × Option String) → List (String × Option String)
  | [] => [(name, path)]
  | e :: es =>
    if name < e.1 then (name, path) :: e :: es
    else if name = e.1 then (name, path) :: es
    else e :: insertEntry name path es

def Draft.file (draft : Draft) : File where
  includes := draft.includes.getD []
  entries := draft.entries.foldr (fun e es => insertEntry e.1 e.2 es) []

def ofNodes? (document : List Node) : Except Fault File :=
  match document with
  | [] => .ok .empty
  | .collection _ true :: nodes => (readMapping document ⟨none, []⟩ .key nodes).map Draft.file
  | [.scalar _ _ s] => if s.isPlain && s.text = "" then .ok .empty else .error .wrongShape
  | _ => .error .wrongShape

/-- Reads an override file. One that has nothing but blanks says nothing; otherwise it has to be one
document. -/
def ofText? (text : String) : Except Fault File := do
  if trim text = "" then return .empty
  else
    let events ← Event.ofTokens? (← Token.ofText? text.toList)
    let (document, rest) ← nodesFrom [] events
    if rest ≠ [] then .error .severalDocuments else ofNodes? document

end File

end DesignDeps.Override
