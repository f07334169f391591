/-!
# JSON values

The part of JSON that configurations and reports need; all numbers are integers. Printing spreads
every non-empty list and object over lines, two blanks further in on every level.
-/

namespace DesignDeps

inductive Json
  | null
  | bool (b : Bool)
  | num (n : Int)
  | str (s : String)
  | arr (items : List Json)
  | obj (fields : List (String × Json))
  deriving Inhabited

namespace Json

def string? : Json → Option String
  | .str s => some s
  | _ => none

def strings? : Json → Option (List String)
  | .arr items => items.mapM string?
  | _ => none

def ofStrings (ss : List String) : Json :=
  .arr (ss.map .str)

def fourDigits (n : Nat) : List Char :=
  let digits := Nat.toDigits 16 n
  List.replicate (4 - digits.length) '0' ++ digits

def escapedChar (c : Char) : List Char :=
  if c = '\"' || c = '\\' then ['\\', c]
  else if c = '\n' then ['\\', 'n']
  else if c = '\r' then ['\\', 'r']
  else if c = '\t' then ['\\', 't']
  else if c.toNat = 8 then ['\\', 'b']
  else if c.toNat = 12 then ['\\', 'f']
  else if c.toNat < 0x20 then '\\' :: 'u' :: fourDigits c.toNat
  else [c]

def literal (s : String) : String :=
  String.ofList ('\"' :: s.toList.flatMap escapedChar ++ ['\"'])

def spread (left right indent : String) (items : List String) : String :=
  if items.isEmpty then left ++ right
  else
    let inner := indent ++ "  "
    left ++ "\n" ++ inner ++ (",\n" ++ inner).intercalate items ++ "\n" ++ indent ++ right

mutual
def prettyAt (indent : String) : Json → String
  | .null => "null"
  | .bool b => if b then "true" else "false"
  | .num n => toString n
  | .str s => literal s
  | .arr items => spread "[" "]" indent (prettyItems (indent ++ "  ") items)
  | .obj fields => spread "\x7b" "\x7d" indent (prettyFields (indent ++ "  ") fields)
def prettyItems (indent : String) : List Json → List String
  | [] => []
  | item :: items => prettyAt indent item :: prettyItems indent items
def prettyFields (indent : String) : List (String × Json) → List String
  | [] => []
  | (key, value) :: fields =>
    (literal key ++ ": " ++ prettyAt indent value) :: prettyFields indent fields
end

def pretty (j : Json) : String :=
  j.prettyAt ""

end Json

end DesignDeps
