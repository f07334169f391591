import DesignDeps.Yaml.Token
import DesignDeps.Yaml.Token.Scalar
import DesignDeps.Yaml.Token.Tag

/-!
# From text to tokens

Blocks are opened and closed by indentation. That something is a mapping key shows only at the colon
behind it, so every place where a key may begin is remembered, one on each level of flow
collections; when the colon comes, the key token is put in front of what has been read since. Such a
key stays on one line and has at most 1024 characters.
-/

namespace DesignDeps.Yaml

/-- Where a key may have begun. -/
structure KeyPlace where
  /-- It has to be a key, because nothing else can stand there. -/
  required : Bool
  /-- The number of tokens in front of it. -/
  position : Nat
  spot : Spot

structure Lexer where
  rest : List Spot
  tokens : List Token
  flow : Nat
  keyAllowed : Bool
  /-- For every level of flow collections, the innermost first. -/
  keys : List (Option KeyPlace)
  /-- The column of the innermost block; outside of any it is `-1`. -/
  indent : Int
  outerIndents : List Int

namespace Lexer

def new (spots : List Spot) : Lexer :=
  ⟨spots, [], 0, true, [none], -1, []⟩

def inFlow (x : Lexer) : Bool := x.flow != 0

def here (x : Lexer) : Spot :=
  x.rest.head?.getD ⟨endChar, 0, 0, 0⟩

def emit (x : Lexer) (t : Token) : Lexer :=
  { x with tokens := t :: x.tokens }

def insertAt (x : Lexer) (n : Nat) (t : Token) : Lexer :=
  let later := x.tokens.length - n
  { x with tokens := x.tokens.take later ++ t :: x.tokens.drop later }

def skip (x : Lexer) (n : Nat) : Lexer :=
  { x with rest := x.rest.drop n }

-- ---------------------------------------------------------------------------
-- Keys
-- ---------------------------------------------------------------------------

def dropKey (x : Lexer) : Except Fault Lexer :=
  match x.keys with
  | some k :: keys => if k.required then .error .missingColon else .ok { x with keys := none :: keys }
  | _ => .ok x

/-- Remembers that a key may begin here. -/
def saveKey (x : Lexer) : Except Fault Lexer := do
  if x.keyAllowed then
    let x ← x.dropKey
    let required := !x.inFlow && x.indent == x.here.column
    return { x with keys := some ⟨required, x.tokens.length, x.here⟩ :: x.keys.drop 1 }
  else return x

def KeyPlace.isStale (k : KeyPlace) (here : Spot) : Bool :=
  k.spot.line < here.line || k.spot.index + 1024 < here.index

def dropStale (x : Lexer) : Except Fault Lexer := do
  let keys ← x.keys.mapM fun
    | some k =>
      if KeyPlace.isStale k x.here then
        if k.required then .error .missingColon else .ok none
      else .ok (some k)
    | none => .ok none
  return { x with keys }

-- ---------------------------------------------------------------------------
-- Indentation
-- ---------------------------------------------------------------------------

def openBlock (x : Lexer) (column : Nat) (position : Nat) (t : Token) : Lexer :=
  if !x.inFlow && x.indent < column then
    { x.insertAt position t with indent := column, outerIndents := x.indent :: x.outerIndents }
  else x

/-- Closes one block after the other as long as they are further in than `column`. -/
def closeBlocksFrom (column indent : Int) (tokens : List Token) :
    List Int → Int × List Int × List Token
  | [] => (indent, [], tokens)
  | outer :: outers =>
    if column < indent then closeBlocksFrom column outer (.blockEnd :: tokens) outers
    else (indent, outer :: outers, tokens)

def closeBlocks (x : Lexer) (column : Int) : Lexer :=
  if x.inFlow then x
  else
    let (indent, outerIndents, tokens) := closeBlocksFrom column x.indent x.tokens x.outerIndents
    { x with indent, outerIndents, tokens }

-- ---------------------------------------------------------------------------
-- Between tokens
-- ---------------------------------------------------------------------------

/-- Skips blanks, comments and line breaks, and finds out whether a key may begin behind them. Tabs
are no indentation. A byte order mark may start a line, and counts as a column of it. -/
def gapFrom (inFlow : Bool) : Bool → Bool → List Spot → Bool × List Spot
  | keyAllowed, _, [] => (keyAllowed, [])
  | keyAllowed, inComment, s :: rest =>
    let c := s.char
    if isBreak c then gapFrom inFlow (keyAllowed || !inFlow) false rest
    else if inComment && !isEnd c then gapFrom inFlow keyAllowed true rest
    else if s.column == 0 && c == byteOrderMark then gapFrom inFlow keyAllowed false rest
    else if c == ' ' || ((inFlow || !keyAllowed) && c == '\t') then
      gapFrom inFlow keyAllowed false rest
    else if c == '#' then gapFrom inFlow keyAllowed true rest
    else (keyAllowed, s :: rest)

def skipGap (x : Lexer) : Lexer :=
  let (keyAllowed, rest) := gapFrom x.inFlow x.keyAllowed false x.rest
  { x with keyAllowed, rest }

-- ---------------------------------------------------------------------------
-- Single tokens
-- ---------------------------------------------------------------------------

def outermost (x : Lexer) : Except Fault Lexer := do
  let x ← (x.closeBlocks (-1)).dropKey
  return { x with keyAllowed := false }

def directiveToken (x : Lexer) : Except Fault Lexer := do
  let x ← x.outermost
  let (d, rest) ← directive (x.rest.drop 1)
  let token :=
    match d with
    | .version major minor => Token.version major minor
    | .tagShorthand handle lead => .tagShorthand handle lead
  return { x with rest }.emit token

def boundary (x : Lexer) (t : Token) : Except Fault Lexer := do
  return (← x.outermost).skip 3 |>.emit t

def openFlow (x : Lexer) (t : Token) : Except Fault Lexer := do
  let x ← x.saveKey
  return ({ x with keys := none :: x.keys, flow := x.flow + 1, keyAllowed := true }.skip 1).emit t

def closeFlow (x : Lexer) (t : Token) : Except Fault Lexer := do
  let x ← x.dropKey
  let keys := if x.inFlow then x.keys.drop 1 else x.keys
  return ({ x with keys, flow := x.flow - 1, keyAllowed := false }.skip 1).emit t

def flowEntry (x : Lexer) : Except Fault Lexer := do
  let x ← x.dropKey
  return ({ x with keyAllowed := true }.skip 1).emit .flowEntry

def blockIndicator (x : Lexer) (fault : Fault) (opener : Token) : Except Fault Lexer :=
  if x.inFlow then .ok x
  else if x.keyAllowed then .ok (x.openBlock x.here.column x.tokens.length opener)
  else .error fault

def blockEntry (x : Lexer) : Except Fault Lexer := do
  let x ← x.blockIndicator .misplacedEntry .blockSequenceStart
  let x ← x.dropKey
  return ({ x with keyAllowed := true }.skip 1).emit .blockEntry

def keyToken (x : Lexer) : Except Fault Lexer := do
  let x ← x.blockIndicator .misplacedKey .blockMappingStart
  let x ← x.dropKey
  return ({ x with keyAllowed := !x.inFlow }.skip 1).emit .key

def valueToken (x : Lexer) : Except Fault Lexer := do
  match x.keys with
  | some k :: keys =>
    let x := (x.insertAt k.position .key).openBlock k.spot.column k.position .blockMappingStart
    return ({ x with keys := none :: keys, keyAllowed := false }.skip 1).emit .value
  | _ =>
    let x ← x.blockIndicator .misplacedValue .blockMappingStart
    return ({ x with keyAllowed := !x.inFlow }.skip 1).emit .value

def anchorToken (x : Lexer) (make : String → Token) : Except Fault Lexer := do
  let x ← x.saveKey
  let (name, rest) ← anchorName (x.rest.drop 1)
  return { x with rest, keyAllowed := false }.emit (make name)

def tagToken (x : Lexer) : Except Fault Lexer := do
  let x ← x.saveKey
  let (handle, suffix, rest) ← tagParts x.inFlow x.rest
  return { x with rest, keyAllowed := false }.emit (.tag handle suffix)

def textColumn (x : Lexer) : Nat := (x.indent + 1).toNat

def blockToken (x : Lexer) (literal : Bool) : Except Fault Lexer := do
  let x ← x.dropKey
  let (text, rest) ← blockScalar literal x.textColumn (x.rest.drop 1)
  return { x with rest, keyAllowed := true }.emit (.scalar ⟨text, false⟩)

def quotedToken (x : Lexer) (single : Bool) : Except Fault Lexer := do
  let x ← x.saveKey
  let (text, rest) ← quotedScalar single (x.rest.drop 1)
  return { x with rest, keyAllowed := false }.emit (.scalar ⟨text, false⟩)

def plainToken (x : Lexer) : Except Fault Lexer := do
  let x ← x.saveKey
  let (text, broken, rest) ← plainScalar x.inFlow x.textColumn x.rest
  return { x with rest, keyAllowed := broken }.emit (.scalar ⟨text, true⟩)

def isIndicator (c : Char) : Bool :=
  ['-', '?', ':', ',', '[', ']', '\x7b', '\x7d', '#', '&', '*', '!', '|', '>', '\'', '\"', '%', '@',
    '\x60'].contains c

def beginsPlain (x : Lexer) : Bool :=
  let c := charAt x.rest 0
  let follower := charAt x.rest 1
  !(isBlankOrEnd c || isIndicator c) || (c == '-' && !isBlankChar follower) ||
    (!x.inFlow && (c == '?' || c == ':') && !isBlankOrEnd follower)

/-- The token of the next character, which is neither blank nor the end. -/
def token (x : Lexer) : Except Fault Lexer :=
  let c := charAt x.rest 0
  let apart := isBlankOrEnd (charAt x.rest 1)
  if x.here.column == 0 && c == '%' then x.directiveToken
  else if isDocumentMark '-' x.rest then x.boundary .documentStart
  else if isDocumentMark '.' x.rest then x.boundary .documentEnd
  else if c == '[' then x.openFlow .flowSequenceStart
  else if c == '\x7b' then x.openFlow .flowMappingStart
  else if c == ']' then x.closeFlow .flowSequenceEnd
  else if c == '\x7d' then x.closeFlow .flowMappingEnd
  else if c == ',' then x.flowEntry
  else if c == '-' && apart then x.blockEntry
  else if c == '?' && (x.inFlow || apart) then x.keyToken
  else if c == ':' && (x.inFlow || apart) then x.valueToken
  else if c == '*' then x.anchorToken .alias
  else if c == '&' then x.anchorToken .anchor
  else if c == '!' then x.tagToken
  else if c == '|' && !x.inFlow then x.blockToken true
  else if c == '>' && !x.inFlow then x.blockToken false
  else if c == '\'' then x.quotedToken true
  else if c == '\"' then x.quotedToken false
  else if x.beginsPlain then x.plainToken
  else .error .unknownToken

/-- At most `n` tokens and the end; every token takes a character at least. -/
def tokensWithin : Nat → Lexer → Except Fault (List Token)
  | 0, _ => .error .unknownToken
  | n + 1, x => do
    let x := (← x.skipGap.dropStale)
    let x := x.closeBlocks x.here.column
    if isEnd (charAt x.rest 0) then
      let x ← (x.closeBlocks (-1)).dropKey
      return (x.emit .streamEnd).tokens.reverse
    else tokensWithin n (← x.token)

end Lexer

def Token.ofText? (text : List Char) : Except Fault (List Token) := do
  let spots ← spotsOf text
  Lexer.tokensWithin (spots.length + 1) (.new spots)

end DesignDeps.Yaml
