import DesignDeps.Text.Char
import DesignDeps.Text.Pattern

/-!
# The skeleton of a source text

What is left when everything is taken away that could hide or fake an instantiation: string
literals, comments, and the contents of groups. `fifo #(.W(8)) u (.clk(clk));` has the skeleton
`fifo #() u ();`.

Strings, line comments and block comments are taken out in three passes over the whole text, not by
one reader, and block comments do not nest.
-/

namespace DesignDeps.Skeleton

open Text

private theorem length_lt_cons_cons {c d : Char} {r rest : List Char}
    (h : rest.length ≤ r.length) : rest.length < (c :: d :: r).length := by
  simp only [List.length_cons]
  omega

-- ---------------------------------------------------------------------------
-- Strings and comments
-- ---------------------------------------------------------------------------

def readQuoted : List Char → Option (Unit × List Char)
  | '\"' :: s =>
    match s.dropWhile fun c => c != '\"' && c != '\n' with
    | '\"' :: rest => some ((), rest)
    | _ => none
  | _ => none

/-- A string literal on one line. A backslash does not protect a quote. -/
def quotedText : Pattern Unit where
  read := readQuoted
  shrinks := by
    intro s a rest h
    unfold readQuoted at h
    split at h
    · next s =>
      split at h
      · next r hr =>
        have hlen := length_dropWhile_le (fun c => c != '\"' && c != '\n') s
        simp only [Option.some.injEq, Prod.mk.injEq] at h
        rw [hr, h.2] at hlen
        simp only [List.length_cons] at hlen ⊢
        omega
      · simp at h
    · simp at h

def readLineComment : List Char → Option (Unit × List Char)
  | '/' :: '/' :: s => some ((), s.dropWhile (· != '\n'))
  | _ => none

def lineComment : Pattern Unit where
  read := readLineComment
  shrinks := by
    intro s a rest h
    unfold readLineComment at h
    split at h
    · simp only [Option.some.injEq, Prod.mk.injEq] at h
      exact h.2 ▸ length_lt_cons_cons (length_dropWhile_le _ _)
    · simp at h

def afterClose? : List Char → Option (List Char)
  | [] => none
  | '*' :: '/' :: rest => some rest
  | _ :: s => afterClose? s

theorem length_afterClose?_le {s rest : List Char} (h : afterClose? s = some rest) :
    rest.length ≤ s.length := by
  fun_induction afterClose? s with
  | case1 => simp at h
  | case2 r =>
    simp only [Option.some.injEq] at h
    simp [← h]
    omega
  | case3 c s _ ih => exact Nat.le_succ_of_le (ih h)

def readBlockComment : List Char → Option (Unit × List Char)
  | '/' :: '*' :: s => (afterClose? s).map ((), ·)
  | _ => none

def blockComment : Pattern Unit where
  read := readBlockComment
  shrinks := by
    intro s a rest h
    unfold readBlockComment at h
    split at h
    · simp only [Option.map_eq_some_iff, Prod.mk.injEq] at h
      obtain ⟨r, hr, _, rfl⟩ := h
      exact length_lt_cons_cons (length_afterClose?_le hr)
    · simp at h

/-- Without string literals, then without line comments, then without block comments. -/
def strip (s : List Char) : List Char :=
  blockComment.replaceAll [] (lineComment.replaceAll [] (quotedText.replaceAll [] s))

-- ---------------------------------------------------------------------------
-- Parameter groups
-- ---------------------------------------------------------------------------

def readParamOpen : List Char → Option (Unit × List Char)
  | '#' :: s =>
    match s.dropWhile isBlank with
    | '(' :: rest => some ((), rest)
    | _ => none
  | _ => none

def paramOpen : Pattern Unit where
  read := readParamOpen
  shrinks := by
    intro s a rest h
    unfold readParamOpen at h
    split at h
    · next s =>
      split at h
      · next r hr =>
        have hlen := length_dropWhile_le isBlank s
        simp only [Option.some.injEq, Prod.mk.injEq] at h
        rw [hr, h.2] at hlen
        simp only [List.length_cons] at hlen ⊢
        omega
      · simp at h
    · simp at h

def spaceParams (s : List Char) : List Char :=
  paramOpen.replaceAll [' ', '#', '('] s

-- ---------------------------------------------------------------------------
-- Groups
-- ---------------------------------------------------------------------------

/-- How far a text has been collapsed: what is settled, what stands between the last cut and here,
and how many groups of either kind are open. Both texts have their last character first. The two
kinds are counted apart, whatever their nesting. -/
structure Collapse where
  kept : List Char
  pending : List Char
  parens : Nat
  brackets : Nat
  deriving DecidableEq

namespace Collapse

def start : Collapse := ⟨[], [], 0, 0⟩

def outside (s : Collapse) : Bool :=
  s.parens == 0 && s.brackets == 0

/-- Outside of any group an opener settles what is pending, a parenthesis together with itself.
Closing a parenthesis cuts in front of it, closing a bracket behind it; a closer without an opener
is an ordinary character. -/
def step (s : Collapse) (c : Char) : Collapse :=
  let pending := c :: s.pending
  if c = '(' then
    ⟨if s.outside then pending ++ s.kept else s.kept, pending, s.parens + 1, s.brackets⟩
  else if c = '[' then
    ⟨if s.outside then s.pending ++ s.kept else s.kept, pending, s.parens, s.brackets + 1⟩
  else if c = ')' && s.parens != 0 then ⟨s.kept, [c], s.parens - 1, s.brackets⟩
  else if c = ']' && s.brackets != 0 then ⟨s.kept, [], s.parens, s.brackets - 1⟩
  else { s with pending := pending }

def finish (s : Collapse) : List Char :=
  (s.pending ++ s.kept).reverse

end Collapse

/-- Empties every outermost `(…)` and removes every outermost `[…]`. -/
def collapse (s : List Char) : List Char :=
  (s.foldl Collapse.step .start).finish

def ofText (s : List Char) : List Char :=
  collapse (spaceParams (strip s))

end DesignDeps.Skeleton
