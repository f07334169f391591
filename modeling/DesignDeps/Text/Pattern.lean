/-!
# Patterns searched for in a text

A pattern reads a match off the front of a text and always consumes something. Searching goes from
left to right: after a match it resumes behind the match, otherwise one character further on. So
matches never overlap and an earlier one hides whatever begins inside it.
-/

namespace DesignDeps.Text

structure Pattern (α : Type) where
  /-- What matches at the front of a text, and the text behind it. -/
  read : List Char → Option (α × List Char)
  shrinks : ∀ {s a rest}, read s = some (a, rest) → rest.length < s.length

namespace Pattern

variable {α : Type}

/-- Every match, in the order of the text. -/
def findAll (p : Pattern α) : List Char → List α
  | [] => []
  | c :: cs =>
    match _h : p.read (c :: cs) with
    | some (a, rest) => a :: p.findAll rest
    | none => p.findAll cs
termination_by s => s.length
decreasing_by
  · exact p.shrinks _h
  · simp

/-- The text with every match replaced by `new`. -/
def replaceAll (p : Pattern α) (new : List Char) : List Char → List Char
  | [] => []
  | c :: cs =>
    match _h : p.read (c :: cs) with
    | some (_, rest) => new ++ p.replaceAll new rest
    | none => c :: p.replaceAll new cs
termination_by s => s.length
decreasing_by
  · exact p.shrinks _h
  · simp

theorem findAll_nil (p : Pattern α) : p.findAll [] = [] := by
  rw [findAll]

theorem findAll_cons (p : Pattern α) (c : Char) (cs : List Char) :
    p.findAll (c :: cs) =
      match p.read (c :: cs) with
      | some (a, rest) => a :: p.findAll rest
      | none => p.findAll cs := by
  rw [findAll]
  split <;> simp_all

theorem replaceAll_nil (p : Pattern α) (new : List Char) : p.replaceAll new [] = [] := by
  rw [replaceAll]

theorem replaceAll_cons (p : Pattern α) (new : List Char) (c : Char) (cs : List Char) :
    p.replaceAll new (c :: cs) =
      match p.read (c :: cs) with
      | some (_, rest) => new ++ p.replaceAll new rest
      | none => c :: p.replaceAll new cs := by
  rw [replaceAll]
  split <;> simp_all

end Pattern

/-! Reading steps shared by the patterns. Each returns a text no longer than the one it was given. -/

def after? : List Char → List Char → Option (List Char)
  | [], s => some s
  | _ :: _, [] => none
  | l :: ls, c :: cs => if l = c then after? ls cs else none

theorem after?_eq_some_iff {lit s rest : List Char} : after? lit s = some rest ↔ s = lit ++ rest := by
  induction lit generalizing s with
  | nil => simp [after?, eq_comm]
  | cons l ls ih =>
    cases s with
    | nil => simp [after?]
    | cons c cs =>
      by_cases h : l = c
      · simp [after?, h, ih]
      · simp [after?, h, Ne.symm h]

def run? (p : Char → Bool) (s : List Char) : Option (List Char × List Char) :=
  match s.takeWhile p with
  | [] => none
  | w => some (w, s.dropWhile p)

theorem run?_eq_some_iff {p : Char → Bool} {s w rest : List Char} :
    run? p s = some (w, rest) ↔ w ≠ [] ∧ w = s.takeWhile p ∧ rest = s.dropWhile p := by
  unfold run?
  cases h : s.takeWhile p with
  | nil => simp; rintro hw rfl; exact absurd rfl hw
  | cons c cs =>
    simp only [Option.some.injEq, Prod.mk.injEq]
    constructor
    · rintro ⟨rfl, rfl⟩
      simp
    · rintro ⟨_, rfl, rfl⟩
      simp

theorem length_dropWhile_le (p : Char → Bool) (s : List Char) :
    (s.dropWhile p).length ≤ s.length :=
  (List.dropWhile_suffix p).length_le

theorem length_after?_le {lit s rest : List Char} (h : after? lit s = some rest) :
    rest.length ≤ s.length := by
  rw [after?_eq_some_iff.1 h]
  simp

theorem length_run?_lt {p : Char → Bool} {s w rest : List Char} (h : run? p s = some (w, rest)) :
    rest.length < s.length := by
  obtain ⟨hw, rfl, rfl⟩ := run?_eq_some_iff.1 h
  have hs : (s.takeWhile p ++ s.dropWhile p).length = s.length := by
    rw [List.takeWhile_append_dropWhile]
  have hp : 0 < (s.takeWhile p).length := List.length_pos_iff.2 hw
  rw [List.length_append] at hs
  omega

end DesignDeps.Text
