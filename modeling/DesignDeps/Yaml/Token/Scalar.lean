import DesignDeps.Yaml.Spot

/-!
# Scalars

The text of a scalar is gathered character by character. Line breaks inside plain and quoted scalars
are folded: one break alone is a blank, and of several the first is dropped. Literal blocks keep
their breaks, folded ones fold those between lines that are not indented further.
-/

namespace DesignDeps.Yaml

/-- A text under way, all parts with their last character first. -/
structure Gathered where
  text : List Char
  /-- Blanks seen since the text ended, on the same line. -/
  blanks : List Char
  firstBreak : Option Char
  moreBreaks : List Char
  deriving Inhabited

namespace Gathered

def empty : Gathered := ⟨[], [], none, []⟩

def push (g : Gathered) (c : Char) : Gathered :=
  { g with text := c :: g.text }

def fold (first : Option Char) (more : List Char) : List Char :=
  match first with
  | some '\n' => if more = [] then [' '] else more
  | some c => more ++ [c]
  | none => more

/-- Takes what stood between into the text. `broken` says that a line ended in between. -/
def join (g : Gathered) (broken : Bool) : Gathered :=
  ⟨(if broken then fold g.firstBreak g.moreBreaks else g.blanks) ++ g.text, [], none, []⟩

def addBlank (g : Gathered) (broken : Bool) (c : Char) : Gathered :=
  if broken then g else { g with blanks := c :: g.blanks }

def addBreak (g : Gathered) (broken : Bool) (c : Char) : Gathered :=
  if broken then { g with moreBreaks := c :: g.moreBreaks }
  else { g with blanks := [], firstBreak := some c }

def result (g : Gathered) : String :=
  String.ofList g.text.reverse

end Gathered

-- ---------------------------------------------------------------------------
-- Plain scalars
-- ---------------------------------------------------------------------------

structure Plain where
  gathered : Gathered
  /-- The last character was a blank or a break, or there is none yet. -/
  between : Bool
  /-- A line has ended since the last character of the text. -/
  broken : Bool

inductive Step (σ : Type)
  | stop
  | fail (fault : Fault)
  | next (state : σ)

def isFlowMark (c : Char) : Bool :=
  c == ',' || c == '[' || c == ']' || c == '\x7b' || c == '\x7d'

/-- What a character, with the text behind it, does to a plain scalar. -/
def plainStep (inFlow : Bool) (indent : Nat) (st : Plain) (s : Spot) (rest : List Spot) :
    Step Plain :=
  let c := s.char
  let follower := charAt rest 0
  if isBlankChar c then
    if st.broken && s.column < indent && c == '\t' then .fail .tabForIndentation
    else .next { st with gathered := st.gathered.addBlank st.broken c, between := true }
  else if isBreak c then
    .next ⟨st.gathered.addBreak st.broken c, true, true⟩
  else if isEnd c then .stop
  else if st.broken && !inFlow && s.column < indent then .stop
  else if st.between && (c == '#' || isDocumentBoundary (s :: rest)) then .stop
  else if inFlow && c == ':' && (isFlowMark follower || follower == '?') then .fail .unexpectedColon
  else if c == ':' && isBlankOrEnd follower then .stop
  else if inFlow && isFlowMark c then .stop
  else .next ⟨(st.gathered.join st.broken).push c, false, false⟩

def gatherPlain (inFlow : Bool) (indent : Nat) (st : Plain) :
    List Spot → Except Fault (Plain × List Spot)
  | [] => .ok (st, [])
  | s :: rest =>
    match plainStep inFlow indent st s rest with
    | .stop => .ok (st, s :: rest)
    | .fail fault => .error fault
    | .next st => gatherPlain inFlow indent st rest

/-- The text of a plain scalar, whether it ended behind a line break, and what follows. `indent` is
the column that its lines have to reach. -/
def plainScalar (inFlow : Bool) (indent : Nat) (spots : List Spot) :
    Except Fault (String × Bool × List Spot) := do
  let (st, rest) ← gatherPlain inFlow indent ⟨.empty, true, false⟩ spots
  return (st.gathered.result, st.broken, rest)

-- ---------------------------------------------------------------------------
-- Quoted scalars
-- ---------------------------------------------------------------------------

inductive QuotedMode
  | text
  | between
  | escape
  /-- In a code point with so many digits to come. -/
  | code (digits value : Nat)
  /-- Before the second of two quotes that stand for one. -/
  | twin
  | closed

structure Quoted where
  gathered : Gathered
  mode : QuotedMode
  broken : Bool

def escaped? (c : Char) : Option Char :=
  match c with
  | '0' => some '\x00'
  | 'a' => some '\x07'
  | 'b' => some '\x08'
  | 't' | '\t' => some '\t'
  | 'n' => some '\n'
  | 'v' => some '\x0b'
  | 'f' => some '\x0c'
  | 'r' => some '\r'
  | 'e' => some '\x1b'
  | ' ' => some ' '
  | '\"' => some '\"'
  | '/' => some '/'
  | '\\' => some '\\'
  | 'N' => some '\u0085'
  | '_' => some '\u00a0'
  | 'L' => some '\u2028'
  | 'P' => some '\u2029'
  | _ => none

/-- How many digits follow a backslash and a character. -/
def codeDigits? (c : Char) : Option Nat :=
  match c with
  | 'x' => some 2
  | 'u' => some 4
  | 'U' => some 8
  | _ => none

def isCodePoint (n : Nat) : Bool :=
  n < 0xd800 || (0xdfff < n && n ≤ 0x10ffff)

def quotedText (single : Bool) (st : Quoted) (c : Char) (rest : List Spot) : Step Quoted :=
  let g := st.gathered
  if single && c == '\'' then
    if charAt rest 0 == '\'' then .next ⟨g.push '\'', .twin, false⟩ else .next { st with mode := .closed }
  else if !single && c == '\"' then .next { st with mode := .closed }
  else if !single && c == '\\' then .next ⟨g, .escape, false⟩
  else .next ⟨g.push c, .text, false⟩

/-- What a character, with the text behind it, does to a quoted scalar. -/
def quotedStep (single : Bool) (st : Quoted) (s : Spot) (rest : List Spot) : Step Quoted :=
  let c := s.char
  let g := st.gathered
  match st.mode with
  | .closed => .stop
  | .twin => .next { st with mode := .text }
  | .escape =>
    if isBreak c then .next ⟨g, .between, true⟩
    else
      match escaped? c, codeDigits? c with
      | some d, _ => .next ⟨g.push d, .text, false⟩
      | none, some digits => .next ⟨g, .code digits 0, false⟩
      | none, none => .fail .badEscape
  | .code digits value =>
    match hexValue? c with
    | none => .fail .badEscape
    | some v =>
      let value := value * 16 + v
      if digits > 1 then .next ⟨g, .code (digits - 1) value, false⟩
      else if isCodePoint value then .next ⟨g.push (Char.ofNat value), .text, false⟩
      else .fail .badEscape
  | .text =>
    if isBlankChar c then .next ⟨g.addBlank false c, .between, false⟩
    else if isBreak c then .next ⟨g.addBreak false c, .between, true⟩
    else if isEnd c then .fail .unclosedQuote
    else quotedText single st c rest
  | .between =>
    if isBlankChar c then .next { st with gathered := g.addBlank st.broken c }
    else if isBreak c then .next ⟨g.addBreak st.broken c, .between, true⟩
    else if isEnd c || isDocumentBoundary (s :: rest) then .fail .unclosedQuote
    else quotedText single ⟨g.join st.broken, .text, false⟩ c rest

def gatherQuoted (single : Bool) (st : Quoted) : List Spot → Except Fault (Quoted × List Spot)
  | [] => .ok (st, [])
  | s :: rest =>
    match quotedStep single st s rest with
    | .stop => .ok (st, s :: rest)
    | .fail fault => .error fault
    | .next st => gatherQuoted single st rest

def quotedScalar (single : Bool) (spots : List Spot) : Except Fault (String × List Spot) := do
  let (st, rest) ← gatherQuoted single ⟨.empty, .text, false⟩ spots
  match st.mode with
  | .closed => return (st.gathered.result, rest)
  | _ => .error .unclosedQuote

-- ---------------------------------------------------------------------------
-- Block scalars
-- ---------------------------------------------------------------------------

inductive Chomping
  | strip
  | clip
  | keep

structure BlockHeader where
  chomping : Chomping
  /-- Columns that the block is indented by, if the header says so. -/
  increment : Option Nat

def chomping? (c : Char) : Option Chomping :=
  match c with
  | '+' => some .keep
  | '-' => some .strip
  | _ => none

def increment? (c : Char) : Except Fault (Option Nat) :=
  if c == '0' then .error .badBlockHeader
  else if c.isDigit then .ok (some (c.toNat - '0'.toNat))
  else .ok none

/-- The header of a block and the lines below it; the two parts may come in either order. -/
def blockHeader (spots : List Spot) : Except Fault (BlockHeader × List Spot) := do
  let (header, spots) ←
    match chomping? (charAt spots 0) with
    | some chomping =>
      let increment ← increment? (charAt spots 1)
      pure (BlockHeader.mk chomping increment, spots.drop (if increment.isSome then 2 else 1))
    | none =>
      match ← increment? (charAt spots 0) with
      | none => pure (BlockHeader.mk .clip none, spots)
      | some n =>
        match chomping? (charAt spots 1) with
        | some chomping => pure (BlockHeader.mk chomping (some n), spots.drop 2)
        | none => pure (BlockHeader.mk .clip (some n), spots.drop 1)
  return (header, ← finishLine .badBlockHeader spots)

structure Block where
  text : List Char
  lineBreak : Option Char
  emptyLines : List Char
  /-- Inside a line rather than before its text. -/
  inLine : Bool
  /-- The column of the text; not known before the first line with text. -/
  indent : Option Nat
  /-- The furthest column that indentation has reached. -/
  reached : Nat
  /-- The line before began with a blank. -/
  leadingBlank : Bool

def Block.indenting (b : Block) (column : Nat) : Bool :=
  match b.indent with
  | none => true
  | some indent => column < indent

/-- Begins a line of text with `c`. -/
def Block.begin (b : Block) (literal : Bool) (indent : Nat) (c : Char) : Block :=
  let blank := isBlankChar c
  let joint :=
    if !literal && b.lineBreak == some '\n' && !b.leadingBlank && !blank then
      if b.emptyLines = [] then [' '] else []
    else b.lineBreak.toList
  { b with
    text := c :: (b.emptyLines ++ joint ++ b.text)
    lineBreak := none
    emptyLines := []
    inLine := true
    indent := some indent
    leadingBlank := blank }

def blockStep (literal : Bool) (outer : Nat) (b : Block) (s : Spot) : Step Block :=
  let c := s.char
  if b.inLine then
    if isBreak c then .next { b with lineBreak := some c, inLine := false }
    else if isEnd c then .stop
    else .next { b with text := c :: b.text }
  else if b.indenting s.column && c == ' ' then .next b
  else
    let b := { b with reached := max b.reached s.column }
    if b.indenting s.column && c == '\t' then .fail .tabForIndentation
    else if isBreak c then .next { b with emptyLines := c :: b.emptyLines }
    else
      let indent := b.indent.getD (max (max b.reached outer) 1)
      if s.column == indent && !isEnd c then .next (b.begin literal indent c) else .stop

def gatherBlock (literal : Bool) (outer : Nat) (b : Block) :
    List Spot → Except Fault (Block × List Spot)
  | [] => .ok (b, [])
  | s :: rest =>
    match blockStep literal outer b s with
    | .stop => .ok (b, s :: rest)
    | .fail fault => .error fault
    | .next b => gatherBlock literal outer b rest

/-- The text of a block and what follows; `spots` begin behind its indicator. `outer` is the least
column that text may stand in. -/
def blockScalar (literal : Bool) (outer : Nat) (spots : List Spot) :
    Except Fault (String × List Spot) := do
  let (header, spots) ← blockHeader spots
  let indent := header.increment.map fun n => (outer - 1) + n
  let (b, rest) ← gatherBlock literal outer ⟨[], none, [], false, indent, 0, false⟩ spots
  let ending :=
    match header.chomping with
    | .strip => []
    | .clip => b.lineBreak.toList
    | .keep => b.emptyLines ++ b.lineBreak.toList
  return (String.ofList (ending ++ b.text).reverse, rest)

end DesignDeps.Yaml
