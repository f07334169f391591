/-!
# What a plain scalar means

Written without quotes, a scalar may be null, a truth value or a number; everything else is a text.
Numbers are told from texts exactly: `007` and `1_000` are texts, and so is a decimal too great to
be finite in double precision.
-/

namespace DesignDeps.Yaml

inductive PlainKind
  | null
  | bool
  | number
  | text
  deriving DecidableEq, Inhabited

namespace PlainKind

def isNull (s : String) : Bool :=
  ["null", "Null", "NULL", "~"].contains s

def isBool (s : String) : Bool :=
  ["true", "True", "TRUE", "false", "False", "FALSE"].contains s

def digitValue (c : Char) : Option Nat :=
  if c.isDigit then some (c.toNat - '0'.toNat)
  else if 'a' ≤ c && c ≤ 'z' then some (c.toNat - 'a'.toNat + 10)
  else if 'A' ≤ c && c ≤ 'Z' then some (c.toNat - 'A'.toNat + 10)
  else none

def natural? (base : Nat) (cs : List Char) : Option Nat :=
  if cs = [] then none
  else
    cs.foldlM (fun n c => do
      let v ← digitValue c
      if v < base then some (n * base + v) else none) 0

def marked? : List Char → Option (Nat × List Char)
  | '0' :: 'x' :: cs => some (16, cs)
  | '0' :: 'o' :: cs => some (8, cs)
  | '0' :: 'b' :: cs => some (2, cs)
  | _ => none

def isSign (c : Char) : Bool := c == '+' || c == '-'

def isPadded (cs : List Char) : Bool :=
  let cs := if cs.head?.any isSign then cs.drop 1 else cs
  match cs with
  | '0' :: d :: ds => (d :: ds).all Char.isDigit
  | _ => false

/-- A whole number in one of four bases, read below a limit. -/
def wholeBelow (limit : Nat) (cs digits : List Char) : Bool :=
  let small (n? : Option Nat) : Bool := n?.any (· < limit)
  (match marked? digits with
    | some (base, ds) => small (natural? base ds)
    | none => false) ||
  (!isPadded cs && small (natural? 10 digits))

def isWhole (cs : List Char) : Bool :=
  match cs with
  | '-' :: ds => wholeBelow (Nat.pow 2 127 + 1) cs ds
  | '+' :: ds => wholeBelow (Nat.pow 2 128) cs ds
  | ds => wholeBelow (Nat.pow 2 128) cs ds

def overflow : Nat := Nat.pow 2 1024 - Nat.pow 2 970

/-- Whether `m · 10 ^ e` stays finite. -/
def isFinite (m : Nat) (e : Int) : Bool :=
  let magnitude := (Nat.toDigits 10 m).length + e
  if m = 0 || magnitude < 300 then true
  else if magnitude > 400 then false
  else if 0 ≤ e then m * Nat.pow 10 e.toNat < overflow
  else m < overflow * Nat.pow 10 (-e).toNat

/-- The exponent behind a decimal, if nothing else stands there. -/
def exponent? : List Char → Option Int
  | [] => some 0
  | c :: cs =>
    if c == 'e' || c == 'E' then
      match cs with
      | '-' :: ds => (natural? 10 ds).map fun n => -n
      | '+' :: ds => (natural? 10 ds).map Int.ofNat
      | ds => (natural? 10 ds).map Int.ofNat
    else none

/-- A finite decimal number without sign. Digits may be missing on one side of the point. -/
def isDecimal (cs : List Char) : Bool :=
  let whole := cs.takeWhile Char.isDigit
  let rest := cs.dropWhile Char.isDigit
  let (fraction, rest) :=
    match rest with
    | '.' :: rest => (rest.takeWhile Char.isDigit, rest.dropWhile Char.isDigit)
    | _ => ([], rest)
  match natural? 10 (whole ++ fraction), exponent? rest with
  | some m, some e => isFinite m (e - fraction.length)
  | _, _ => false

def isSpecial (s : String) : Bool :=
  [".inf", ".Inf", ".INF", "+.inf", "+.Inf", "+.INF", "-.inf", "-.Inf", "-.INF", ".nan", ".NaN",
    ".NAN"].contains s

def isFloat (s : String) (cs : List Char) : Bool :=
  isSpecial s || (!isPadded cs && isDecimal (if cs.head?.any isSign then cs.drop 1 else cs))

end PlainKind

def PlainKind.of (s : String) : PlainKind :=
  if s = "" || isNull s then .null
  else if isBool s then .bool
  else if isWhole s.toList || isFloat s s.toList then .number
  else .text

end DesignDeps.Yaml
