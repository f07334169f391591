import DesignDeps.Text.Char
import DesignDeps.Text.Pattern

/-!
# Cutting texts

Trimming, splitting and searching for a literal. Blanks are those of `isBlank`; nothing here knows
about lines or quoting.
-/

namespace DesignDeps.Text

def trimChars (s : List Char) : List Char :=
  ((s.dropWhile isBlank).reverse.dropWhile isBlank).reverse

def trim (s : String) : String :=
  String.ofList (trimChars s.toList)

def solid : Pattern (List Char) where
  read := run? (!isBlank ·)
  shrinks := length_run?_lt

def fields (s : String) : List String :=
  (solid.findAll s.toList).map String.ofList

/-- The pieces between the occurrences of `sep`; there is always one more piece than occurrences. -/
def pieces (sep : Char) : List Char → List (List Char)
  | [] => [[]]
  | c :: cs =>
    if c = sep then [] :: pieces sep cs
    else
      match pieces sep cs with
      | [] => [[c]]
      | p :: ps => (c :: p) :: ps

def splitAll (sep : Char) (s : String) : List String :=
  (pieces sep s.toList).map String.ofList

def splitFirst? (sep : Char) (s : String) : Option (String × String) :=
  match s.toList.dropWhile (· != sep) with
  | [] => none
  | _ :: rest => some (String.ofList (s.toList.takeWhile (· != sep)), String.ofList rest)

def occursIn (part : List Char) : List Char → Bool
  | [] => part.isEmpty
  | c :: cs => part.isPrefixOf (c :: cs) || occursIn part cs

theorem occursIn_iff {part s : List Char} : occursIn part s = true ↔ part <:+: s := by
  induction s with
  | nil => simp [occursIn]
  | cons c cs ih => simp [occursIn, ih, List.infix_cons_iff]

def contains (s part : String) : Bool :=
  occursIn part.toList s.toList

theorem contains_iff {s part : String} : contains s part = true ↔ part.toList <:+: s.toList :=
  occursIn_iff

def endsWith (s part : String) : Bool :=
  part.toList.isSuffixOf s.toList

theorem endsWith_iff {s part : String} : endsWith s part = true ↔ part.toList <:+ s.toList := by
  simp [endsWith]

end DesignDeps.Text
