import DesignDeps.Text.Utf8
import DesignDeps.Yaml.Spot

/-!
# Tags, anchors and directives

Their parts as they stand in a document. Shorthands are not replaced here.
-/

namespace DesignDeps.Yaml

open Text

def anchorName (spots : List Spot) : Except Fault (String × List Spot) :=
  let (name, rest) := takeChars isNameChar spots
  let c := charAt rest 0
  if name ≠ [] && (isBlankOrEnd c || ['?', ':', ',', ']', '\x7d', '%', '@', '\x60'].contains c) then
    .ok (String.ofList name, rest)
  else .error .badAnchor

/-- `!`, `!!` or `!name!`. What begins with `!name` and goes on otherwise is part of a suffix, which
a directive does not allow. -/
def tagHandle (inDirective : Bool) (spots : List Spot) : Except Fault (List Char × List Spot) :=
  if charAt spots 0 != '!' then .error .badTag
  else
    let (name, rest) := takeChars isNameChar (spots.drop 1)
    if charAt rest 0 == '!' then .ok ('!' :: name ++ ['!'], rest.drop 1)
    else if inDirective && name ≠ [] then .error .badDirective
    else .ok ('!' :: name, rest)

def isUriChar (c : Char) : Bool :=
  isNameChar c || [';', '/', '?', ':', '@', '&', '=', '+', '$', '.', '!', '~', '*', '\'', '(', ')',
    '%'].contains c

def isOpenUriChar (c : Char) : Bool :=
  isUriChar c || c == ',' || c == '[' || c == ']'

def octet? (spots : List Spot) : Option UInt8 :=
  match charAt spots 0, hexValue? (charAt spots 1), hexValue? (charAt spots 2) with
  | '%', some high, some low => some (UInt8.ofNat (high * 16 + low))
  | _, _, _ => none

/-- How many bytes a character with this first byte has. -/
def octetWidth? (b : UInt8) : Option Nat :=
  if b < 0x80 then some 1
  else if b &&& 0xe0 == 0xc0 then some 2
  else if b &&& 0xf0 == 0xe0 then some 3
  else if b &&& 0xf8 == 0xf0 then some 4
  else none

/-- Up to `n` bytes that continue a character. -/
def moreOctets : Nat → List Spot → Except Fault (List UInt8 × List Spot)
  | 0, spots => .ok ([], spots)
  | n + 1, spots => do
    match octet? spots with
    | some b =>
      if b &&& 0xc0 == 0x80 then
        let (bs, rest) ← moreOctets n (spots.drop 3)
        return (b :: bs, rest)
      else .error .badTag
    | none => .error .badTag

/-- The characters of a tag, at most `n` of them; there are never more than spots. -/
def uriWithin (isUri : Char → Bool) : Nat → List Spot → Except Fault (List Char × List Spot)
  | 0, spots => .ok ([], spots)
  | n + 1, spots => do
    let c := charAt spots 0
    if !isUri c then return ([], spots)
    else if c == '%' then
      match octet? spots with
      | none => .error .badTag
      | some b =>
        match octetWidth? b with
        | none => .error .badTag
        | some width =>
          let (bs, rest) ← moreOctets (width - 1) (spots.drop 3)
          let (cs, rest) ← uriWithin isUri n rest
          return (Utf8.lossyChars (b :: bs) ++ cs, rest)
    else
      let (cs, rest) ← uriWithin isUri n (spots.drop 1)
      return (c :: cs, rest)

def tagUri (isUri : Char → Bool) (head : List Char) (spots : List Spot) :
    Except Fault (List Char × List Spot) := do
  let (cs, rest) ← uriWithin isUri spots.length spots
  if head = [] && cs = [] then .error .badTag
  else return (head.drop 1 ++ cs, rest)

/-- The handle and the suffix of a tag; `spots` begin with its `!`. A lone `!` has no handle. -/
def tagParts (inFlow : Bool) (spots : List Spot) :
    Except Fault (String × String × List Spot) := do
  let (handle, suffix, rest) ←
    if charAt spots 1 == '<' then do
      let (suffix, rest) ← tagUri isOpenUriChar [] (spots.drop 2)
      if charAt rest 0 != '>' then .error .badTag
      else pure ([], suffix, rest.drop 1)
    else do
      let (handle, rest) ← tagHandle false spots
      if handle.length > 1 && handle.getLast? == some '!' then
        let (suffix, rest) ← tagUri isUriChar [] rest
        pure (handle, suffix, rest)
      else
        let (suffix, rest) ← tagUri isUriChar handle rest
        pure (if suffix = [] then ([], ['!'], rest) else (['!'], suffix, rest))
  let c := charAt rest 0
  if isBlankOrEnd c || (inFlow && c == ',') then
    return (String.ofList handle, String.ofList suffix, rest)
  else .error .badTag

-- ---------------------------------------------------------------------------
-- Directives
-- ---------------------------------------------------------------------------

inductive Directive
  | version (major minor : Nat)
  | tagShorthand (handle lead : String)

def versionNumber (spots : List Spot) : Except Fault (Nat × List Spot) :=
  let (digits, rest) := takeChars Char.isDigit spots
  if digits = [] || digits.length > 9 then .error .badDirective
  else .ok (digits.foldl (fun n c => n * 10 + (c.toNat - '0'.toNat)) 0, rest)

def directive (spots : List Spot) : Except Fault (Directive × List Spot) := do
  let (name, rest) := takeChars isNameChar spots
  if name = [] || !isBlankOrEnd (charAt rest 0) then .error .badDirective
  else if name = "YAML".toList then
    let (major, rest) ← versionNumber (skipBlanks rest)
    if charAt rest 0 != '.' then .error .badDirective
    else
      let (minor, rest) ← versionNumber (rest.drop 1)
      return (.version major minor, ← finishLine .badDirective rest)
  else if name = "TAG".toList then
    let (handle, rest) ← tagHandle true (skipBlanks rest)
    if !isBlankChar (charAt rest 0) then .error .badDirective
    else
      let (lead, rest) ← tagUri isOpenUriChar [] (skipBlanks rest)
      if !isBlankOrEnd (charAt rest 0) then .error .badDirective
      else
        return (.tagShorthand (String.ofList handle) (String.ofList lead),
          ← finishLine .badDirective rest)
  else .error .badDirective

end DesignDeps.Yaml
