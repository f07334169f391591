import DesignDeps.Text.Char
import DesignDeps.Text.PrintTable

/-!
# Names quoted for reading

The form in which lists of names appear in progress messages: double quotes around, a backslash
before what would end or break the quotation, and code points in place of what would not show.
-/

namespace DesignDeps.Text

def isInvisible (c : Char) : Bool :=
  if c.toNat < 0x80 then c.toNat < 0x20 || c.toNat == 0x7f else inRanges invisibleRanges c.toNat

def isAttaching (c : Char) : Bool :=
  c.toNat ≥ 0x80 && inRanges attachingRanges c.toNat

def codePoint (c : Char) : List Char :=
  ['\\', 'u', '\x7b'] ++ Nat.toDigits 16 c.toNat ++ ['\x7d']

def quotedChar (c : Char) : List Char :=
  if c = '\x00' then ['\\', '0']
  else if c = '\t' then ['\\', 't']
  else if c = '\r' then ['\\', 'r']
  else if c = '\n' then ['\\', 'n']
  else if c = '\"' || c = '\\' then ['\\', c]
  else if isAttaching c || isInvisible c then codePoint c
  else [c]

def quoted (s : String) : String :=
  String.ofList ('\"' :: s.toList.flatMap quotedChar ++ ['\"'])

def quotedList (names : List String) : String :=
  "\x7b" ++ ", ".intercalate (names.map quoted) ++ "\x7d"

end DesignDeps.Text
