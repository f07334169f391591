/-!
# Characters in place

A document is read as a list of characters that know where they stand. Line breaks are brought to
one form on the way, except for the two separators that keep theirs. One character more stands
behind the end, so that the end has a place, too; it cannot occur elsewhere.
-/

namespace DesignDeps.Yaml

inductive Fault
  | forbiddenCharacter
  | unknownToken
  | missingColon
  | misplacedEntry
  | misplacedKey
  | misplacedValue
  | badDirective
  | badAnchor
  | badTag
  | badBlockHeader
  | tabForIndentation
  | unclosedQuote
  | badEscape
  | unexpectedColon
  | unexpectedToken
  | undefinedTag
  | undefinedAlias
  | severalDocuments
  | wrongShape
  deriving DecidableEq, Inhabited

structure Spot where
  char : Char
  index : Nat
  line : Nat
  column : Nat
  deriving DecidableEq, Inhabited

def endChar : Char := '\x00'

def byteOrderMark : Char := '\ufeff'

def isAllowed (c : Char) : Bool :=
  let n := c.toNat
  n == 9 || n == 10 || n == 13 || (0x20 ≤ n && n ≤ 0x7e) || n == 0x85 || (0xa0 ≤ n && n ≤ 0xfffd) ||
    0x10000 ≤ n

def isBlankChar (c : Char) : Bool := c == ' ' || c == '\t'

def isBreak (c : Char) : Bool :=
  c == '\n' || c == '\r' || c.toNat == 0x85 || c.toNat == 0x2028 || c.toNat == 0x2029

def isEnd (c : Char) : Bool := c == endChar

def isBreakOrEnd (c : Char) : Bool := isBreak c || isEnd c

def isBlankOrEnd (c : Char) : Bool := isBlankChar c || isBreakOrEnd c

def oneBreak (c : Char) : Char :=
  if c.toNat == 0x2028 || c.toNat == 0x2029 then c else '\n'

def spotsFrom (index line column : Nat) : List Char → List Spot
  | [] => [⟨endChar, index, line, column⟩]
  | '\r' :: '\n' :: cs => ⟨'\n', index, line, column⟩ :: spotsFrom (index + 1) (line + 1) 0 cs
  | c :: cs =>
    if isBreak c then ⟨oneBreak c, index, line, column⟩ :: spotsFrom (index + 1) (line + 1) 0 cs
    else ⟨c, index, line, column⟩ :: spotsFrom (index + 1) line (column + 1) cs

def spotsOf (text : List Char) : Except Fault (List Spot) :=
  if text.all isAllowed then .ok (spotsFrom 0 0 0 text) else .error .forbiddenCharacter

def charAt (spots : List Spot) (n : Nat) : Char :=
  (spots[n]?.map Spot.char).getD endChar

/-- Three equal marks at the start of a line and nothing attached to them. -/
def isDocumentMark (mark : Char) (spots : List Spot) : Bool :=
  match spots with
  | s :: _ =>
    s.column == 0 && s.char == mark && charAt spots 1 == mark && charAt spots 2 == mark &&
      isBlankOrEnd (charAt spots 3)
  | [] => false

def isDocumentBoundary (spots : List Spot) : Bool :=
  isDocumentMark '-' spots || isDocumentMark '.' spots

def isNameChar (c : Char) : Bool :=
  c.isAlphanum || c == '_' || c == '-'

def hexValue? (c : Char) : Option Nat :=
  if '0' ≤ c && c ≤ '9' then some (c.toNat - '0'.toNat)
  else if 'a' ≤ c && c ≤ 'f' then some (c.toNat - 'a'.toNat + 10)
  else if 'A' ≤ c && c ≤ 'F' then some (c.toNat - 'A'.toNat + 10)
  else none

def skipBlanks (spots : List Spot) : List Spot :=
  spots.dropWhile fun s => isBlankChar s.char

def skipComment (spots : List Spot) : List Spot :=
  if charAt spots 0 == '#' then spots.dropWhile fun s => !isBreakOrEnd s.char else spots

def finishLine (fault : Fault) (spots : List Spot) : Except Fault (List Spot) :=
  let spots := skipComment (skipBlanks spots)
  if isBreak (charAt spots 0) then .ok (spots.drop 1)
  else if isEnd (charAt spots 0) then .ok spots
  else .error fault

def takeChars (p : Char → Bool) (spots : List Spot) : List Char × List Spot :=
  ((spots.takeWhile fun s => p s.char).map Spot.char, spots.dropWhile fun s => p s.char)

end DesignDeps.Yaml
