import DesignDeps.Text.Split

/-!
# Paths

A path is the text it was given as: nothing is normalised, because every spelling shows up again in
messages and fragments. What a path means is read off its components. Two paths with the same
components name the same place, and paths are ordered component by component.
-/

namespace DesignDeps

open Text

structure Path where
  text : String
  deriving DecidableEq, Inhabited

namespace Path

/-- The parts of a path. Repeated and trailing separators and inner `.` components say nothing and
have no part; a leading `.` has one. -/
inductive Component
  | root
  | here
  | up
  | name (s : String)
  deriving DecidableEq

def isAbsolute (p : Path) : Bool :=
  p.text.toList.head? == some '/'

/-- The leading part that every cut leaves in place: a root, or a `.` that stands alone at the
front. -/
inductive Anchor
  | none
  | root
  | here
  deriving DecidableEq

def anchored : List Char → Anchor × List Char
  | '/' :: rest => (.root, rest)
  | ['.'] => (.here, [])
  | '.' :: '/' :: rest => (.here, '/' :: rest)
  | s => (.none, s)

def Anchor.text : Anchor → List Char
  | .none => []
  | .root => ['/']
  | .here => ['.']

def Anchor.components : Anchor → List Component
  | .none => []
  | .root => [.root]
  | .here => [.here]

def isIdle (piece : List Char) : Bool :=
  piece == [] || piece == ['.']

def Component.ofPiece (piece : List Char) : Component :=
  if piece = ['.', '.'] then .up else .name (String.ofList piece)

def components (p : Path) : List Component :=
  let (anchor, body) := anchored p.text.toList
  anchor.components ++ ((pieces '/' body).filter (!isIdle ·)).map Component.ofPiece

def fileName? (p : Path) : Option String :=
  match p.components.getLast? with
  | some (.name s) => some s
  | _ => none

def dropIdle (ps : List (List Char)) : List (List Char) :=
  (ps.reverse.dropWhile isIdle).reverse

def joinPieces (ps : List (List Char)) : List Char :=
  ['/'].intercalate ps

def parent? (p : Path) : Option Path :=
  let (anchor, body) := anchored p.text.toList
  match dropIdle (pieces '/' body) with
  | [] => if anchor = .here then some ⟨""⟩ else none
  | ps => some ⟨String.ofList (anchor.text ++ joinPieces (dropIdle ps.dropLast))⟩

/-- At most `n` steps from a path to its parent. -/
def climb : Nat → Path → List Path
  | 0, p => [p]
  | n + 1, p =>
    match p.parent? with
    | none => [p]
    | some q => p :: climb n q

def ancestors (p : Path) : List Path :=
  climb p.text.length p

def splitAtDot (name : List Char) : List Char × Option (List Char) :=
  let back := name.reverse
  match back.dropWhile (· != '.') with
  | [] | [_] => (name, none)
  | _ :: stem => (stem.reverse, some (back.takeWhile (· != '.')).reverse)

def extension? (p : Path) : Option String :=
  p.fileName?.bind fun name => (splitAtDot name.toList).2.map String.ofList

def stem? (p : Path) : Option String :=
  p.fileName?.map fun name => String.ofList (splitAtDot name.toList).1

/-- The path `q` as seen from `p`. An absolute `q` stands for itself. -/
def join (p q : Path) : Path :=
  if q.isAbsolute then q
  else if p.text.toList.getLast?.all (· == '/') then ⟨p.text ++ q.text⟩
  else ⟨p.text ++ "/" ++ q.text⟩

-- ---------------------------------------------------------------------------
-- Order
-- ---------------------------------------------------------------------------

def Component.rank : Component → Nat
  | .root => 0
  | .here => 1
  | .up => 2
  | .name _ => 3

def Component.compare : Component → Component → Ordering
  | .name s, .name t => Ord.compare s t
  | c, d => Ord.compare c.rank d.rank

def compareComponents : List Component → List Component → Ordering
  | [], [] => .eq
  | [], _ :: _ => .lt
  | _ :: _, [] => .gt
  | c :: cs, d :: ds => (c.compare d).then (compareComponents cs ds)

def compare (p q : Path) : Ordering :=
  compareComponents p.components q.components

/-- Both texts name the same place, as far as their components tell. -/
def same (p q : Path) : Bool :=
  p.components == q.components

def preferred (p q : Path) : Bool :=
  p.text.utf8ByteSize < q.text.utf8ByteSize ||
    (p.text.utf8ByteSize == q.text.utf8ByteSize && p.text < q.text)

end Path

end DesignDeps
