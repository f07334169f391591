import DesignDeps.Proofs.Skeleton.Groups
import Mathlib.Data.List.Basic
import Mathlib.Data.List.Count
import Mathlib.Data.List.Induction

/-!
# What collapsing leaves of a text

A text whose groups are closed is a list of stretches: groups, and the characters between them,
closers that close nothing included. Collapsing takes each stretch by itself (`collapse_stretches`):
a parenthesis group is emptied, a bracket group is gone, and a character stays. What is left is a
list of stretches that are collapsed already.

Groups that are not closed, or that overlap, leave a subsequence of the text as long as something is
closed behind the last opener outside of all groups. Where nothing is (`Dangles`), the text between
the last cut and that opener is copied twice (`collapse_removes`).
-/

namespace DesignDeps.Skeleton

-- ---------------------------------------------------------------------------
-- Closed groups
-- ---------------------------------------------------------------------------

/-- A part of a text outside of all groups. A closer there has nothing to close. -/
inductive Stretch
  | char (c : Char) (opensNone : c ≠ '(' ∧ c ≠ '[')
  | parens (inner : List Char) (nested : Nested inner)
  | brackets (inner : List Char) (nested : Nested inner)

namespace Stretch

def text : Stretch → List Char
  | char c _ => [c]
  | parens inner _ => '(' :: (inner ++ [')'])
  | brackets inner _ => '[' :: (inner ++ [']'])

/-- What is left of the stretch when the groups are collapsed. -/
def collapsed : Stretch → List Char
  | char c _ => [c]
  | parens _ _ => ['(', ')']
  | brackets _ _ => []

end Stretch

theorem adds_char {c : Char} (h : c ≠ '(' ∧ c ≠ '[') : Adds [c] [c] := by
  intro x hout
  obtain ⟨hparens, hbrackets⟩ : x.parens = 0 ∧ x.brackets = 0 := by
    simpa [Collapse.outside] using hout
  have hstep : x.step c = { x with pending := c :: x.pending } := by
    simp [Collapse.step, h.1, h.2, hparens, hbrackets]
  rw [List.foldl_cons, List.foldl_nil, hstep]
  exact ⟨hout, by simp [Collapse.finish]⟩

theorem Stretch.adds (x : Stretch) : Adds x.text x.collapsed := by
  cases x with
  | char c opensNone => exact adds_char opensNone
  | parens inner nested => exact adds_parens nested
  | brackets inner nested => exact adds_brackets nested

theorem Stretch.adds_collapsed (x : Stretch) : Adds x.collapsed x.collapsed := by
  cases x with
  | char c opensNone => exact adds_char opensNone
  | parens inner nested => exact adds_parens .nil
  | brackets inner nested => exact .nil

theorem adds_flatMap {f g : Stretch → List Char} (h : ∀ x, Adds (f x) (g x)) (xs : List Stretch) :
    Adds (xs.flatMap f) (xs.flatMap g) := by
  induction xs with
  | nil => exact .nil
  | cons x xs ih => exact (h x).append ih

/-- Every group that is not in another one is collapsed, everything else is kept in its place, and
there is nothing left to collapse. -/
theorem collapse_stretches (xs : List Stretch) :
    collapse (xs.flatMap Stretch.text) = xs.flatMap Stretch.collapsed ∧
      collapse (collapse (xs.flatMap Stretch.text)) = collapse (xs.flatMap Stretch.text) := by
  have hfirst : collapse (xs.flatMap Stretch.text) = xs.flatMap Stretch.collapsed :=
    collapse_of_adds (adds_flatMap Stretch.adds xs)
  have hagain : collapse (xs.flatMap Stretch.collapsed) = xs.flatMap Stretch.collapsed :=
    collapse_of_adds (adds_flatMap Stretch.adds_collapsed xs)
  exact ⟨hfirst, by rw [hfirst, hagain]⟩

example : collapse "a ) b #(c[d]) [e(f)] ] g".toList = "a ) b #()  ] g".toList := by decide +kernel

-- ---------------------------------------------------------------------------
-- Groups left open
-- ---------------------------------------------------------------------------

def depthStep (o c : Char) (n : Nat) (d : Char) : Nat :=
  if d = o then n + 1 else if d = c then n - 1 else n

/-- How many of the groups between `o` and `c` are open at the end of a text, whatever other groups
they overlap. -/
def depth (o c : Char) (s : List Char) : Nat :=
  s.foldl (depthStep o c) 0

/-- No group is open at the end. -/
def Closed (s : List Char) : Prop :=
  depth '(' ')' s = 0 ∧ depth '[' ']' s = 0

/-- Begins with an opener, and no closer has anything to close. -/
structure Unclosed (s : List Char) : Prop where
  opens : s.head? = some '(' ∨ s.head? = some '['
  parens : ¬['(', ')'].Sublist s
  brackets : ¬['[', ']'].Sublist s

/-- Nothing is closed behind the last opener outside of all groups. -/
def Dangles (s : List Char) : Prop :=
  ∃ front rest, s = front ++ rest ∧ Closed front ∧ Unclosed rest

instance (s : List Char) : Decidable (Closed s) :=
  inferInstanceAs (Decidable (_ ∧ _))

instance (s : List Char) : Decidable (Unclosed s) :=
  decidable_of_iff ((s.head? = some '(' ∨ s.head? = some '[') ∧ ¬['(', ')'].Sublist s ∧
    ¬['[', ']'].Sublist s) ⟨fun h => ⟨h.1, h.2.1, h.2.2⟩, fun h => ⟨h.opens, h.parens, h.brackets⟩⟩

theorem dangles_iff {s : List Char} :
    Dangles s ↔ ∃ n ∈ List.range (s.length + 1), Closed (s.take n) ∧ Unclosed (s.drop n) := by
  constructor
  · rintro ⟨front, rest, rfl, hfront, hrest⟩
    have hlength : front.length ≤ (front ++ rest).length := (List.prefix_append front rest).length_le
    exact ⟨front.length, List.mem_range.2 (Nat.lt_succ_of_le hlength), by simpa using hfront,
      by simpa using hrest⟩
  · rintro ⟨n, -, hfront, hrest⟩
    exact ⟨_, _, (List.take_append_drop n s).symm, hfront, hrest⟩

instance (s : List Char) : Decidable (Dangles s) :=
  decidable_of_iff _ dangles_iff.symm

section
variable {s front rest : List Char} {o c d : Char}

theorem depth_append_singleton : depth o c (s ++ [d]) = depthStep o c (depth o c s) d := by
  simp [depth]

theorem depth_append_unclosed (hfront : depth o c front = 0) (hne : o ≠ c)
    (h : ¬[o, c].Sublist rest) : depth o c (front ++ rest) = rest.count o := by
  induction rest using List.reverseRecOn with
  | nil => simpa using hfront
  | append_singleton rest d ih =>
    have hrest := ih fun hsub => h (hsub.trans (List.sublist_append_left rest [d]))
    rw [← List.append_assoc, depth_append_singleton, hrest, List.count_append]
    unfold depthStep
    by_cases ho : d = o
    · simp [ho]
    · by_cases hc : d = c
      · subst hc
        have hcount : rest.count o = 0 := by
          refine List.count_eq_zero.2 fun hmem => h ?_
          exact (List.singleton_sublist.2 hmem).append (List.Sublist.refl [d])
        simp [hcount, ho]
      · simp [ho, hc]

theorem pair_sublist_concat :
    [o, c].Sublist (s ++ [d]) ↔ [o, c].Sublist s ∨ c = d ∧ o ∈ s := by
  constructor
  · intro h
    obtain ⟨t, u, heq, ht, hu⟩ := List.sublist_append_iff.1 h
    rcases List.sublist_singleton.1 hu with rfl | rfl
    · rw [List.append_nil] at heq
      exact .inl (heq ▸ ht)
    · have hends : [o].concat c = t.concat d := by simpa using heq
      obtain ⟨rfl, rfl⟩ := List.concat_inj.1 hends
      exact .inr ⟨rfl, List.singleton_sublist.1 ht⟩
  · rintro (h | ⟨rfl, h⟩)
    · exact h.trans (List.sublist_append_left s [d])
    · exact (List.singleton_sublist.2 h).append (List.Sublist.refl [c])

theorem Unclosed.concat (h : Unclosed rest) (hparen : d = ')' → '(' ∉ rest)
    (hbracket : d = ']' → '[' ∉ rest) : Unclosed (rest ++ [d]) where
  opens := by
    rcases h.opens with hopen | hopen
    · exact .inl (by simp [hopen])
    · exact .inr (by simp [hopen])
  parens hsub := by
    rcases pair_sublist_concat.1 hsub with hsub | ⟨rfl, hmem⟩
    · exact h.parens hsub
    · exact hparen rfl hmem
  brackets hsub := by
    rcases pair_sublist_concat.1 hsub with hsub | ⟨rfl, hmem⟩
    · exact h.brackets hsub
    · exact hbracket rfl hmem

theorem Unclosed.of_concat (h : Unclosed (c :: (rest ++ [d]))) : Unclosed (c :: rest) where
  opens := h.opens
  parens hsub := h.parens (hsub.trans (List.sublist_append_left (c :: rest) [d]))
  brackets hsub := h.brackets (hsub.trans (List.sublist_append_left (c :: rest) [d]))

theorem Unclosed.singleton (h : d = '(' ∨ d = '[') : Unclosed [d] where
  opens := by simpa using h
  parens hsub := by simpa using hsub.length_le
  brackets hsub := by simpa using hsub.length_le

theorem depth_parens_unclosed (hfront : Closed front) (h : Unclosed rest) :
    depth '(' ')' (front ++ rest) = rest.count '(' :=
  depth_append_unclosed hfront.1 (by decide) h.parens

theorem depth_brackets_unclosed (hfront : Closed front) (h : Unclosed rest) :
    depth '[' ']' (front ++ rest) = rest.count '[' :=
  depth_append_unclosed hfront.2 (by decide) h.brackets

theorem not_closed_of_unclosed (hfront : Closed front) (h : Unclosed rest) :
    ¬Closed (front ++ rest) := by
  rintro ⟨hparens, hbrackets⟩
  rw [depth_parens_unclosed hfront h, List.count_eq_zero] at hparens
  rw [depth_brackets_unclosed hfront h, List.count_eq_zero] at hbrackets
  rcases h.opens with hopen | hopen
  · exact hparens (List.mem_of_mem_head? hopen)
  · exact hbrackets (List.mem_of_mem_head? hopen)

theorem Closed.not_dangles (h : Closed s) : ¬Dangles s := by
  rintro ⟨front, rest, rfl, hfront, hrest⟩
  exact not_closed_of_unclosed hfront hrest h

theorem Dangles.concat (h : Dangles s) (hparen : d = ')' → depth '(' ')' s = 0)
    (hbracket : d = ']' → depth '[' ']' s = 0) : Dangles (s ++ [d]) := by
  obtain ⟨front, rest, rfl, hfront, hrest⟩ := h
  rw [depth_parens_unclosed hfront hrest, List.count_eq_zero] at hparen
  rw [depth_brackets_unclosed hfront hrest, List.count_eq_zero] at hbracket
  exact ⟨front, rest ++ [d], List.append_assoc .., hfront, hrest.concat hparen hbracket⟩

end

-- ---------------------------------------------------------------------------
-- What is kept of a text
-- ---------------------------------------------------------------------------

namespace Collapse

/-- What an opener outside of all groups keeps of itself. -/
def openerKept (c : Char) : List Char :=
  if c = '(' then [c] else []

/-- An opener outside of all groups keeps what is pending, a closer cuts it off, and any other
character joins it. -/
theorem step_cases (x : Collapse) (c : Char) :
    ((c = '(' ∨ c = '[') ∧ x.outside = true ∧
      (x.step c).kept = openerKept c ++ (x.pending ++ x.kept) ∧
        (x.step c).pending = c :: x.pending) ∨
    ((c = ')' ∧ x.parens ≠ 0 ∨ c = ']' ∧ x.brackets ≠ 0) ∧ (x.step c).kept = x.kept ∧
      ((x.step c).pending = [c] ∨ (x.step c).pending = [])) ∨
    ((c = '(' ∨ c = '[' → x.outside = false) ∧ (c = ')' → x.parens = 0) ∧
      (c = ']' → x.brackets = 0) ∧ (x.step c).kept = x.kept ∧
        (x.step c).pending = c :: x.pending) := by
  unfold step openerKept
  split_ifs <;> grind

theorem parens_step (x : Collapse) (c : Char) :
    (x.step c).parens = depthStep '(' ')' x.parens c := by
  unfold step depthStep
  split_ifs <;> grind

theorem brackets_step (x : Collapse) (c : Char) :
    (x.step c).brackets = depthStep '[' ']' x.brackets c := by
  unfold step depthStep
  split_ifs <;> grind

/-- `x` is what has been made of `s`. What is kept stands in `s` in its order, and in front of what
is pending unless `s` dangles. -/
structure Follows (x : Collapse) (s : List Char) : Prop where
  parens : x.parens = depth '(' ')' s
  brackets : x.brackets = depth '[' ']' s
  kept : x.kept.reverse.Sublist s
  apart : ¬Dangles s → ∃ front, s = front ++ x.pending.reverse ∧ x.kept.reverse.Sublist front

variable {x : Collapse} {s front rest : List Char} {c : Char}

theorem Follows.outside_iff (h : x.Follows s) : x.outside = true ↔ Closed s := by
  simp [outside, Closed, h.parens, h.brackets]

theorem Follows.step (h : x.Follows s) (c : Char) : (x.step c).Follows (s ++ [c]) := by
  have hparens : (x.step c).parens = depth '(' ')' (s ++ [c]) := by
    rw [parens_step, depth_append_singleton, h.parens]
  have hbrackets : (x.step c).brackets = depth '[' ']' (s ++ [c]) := by
    rw [brackets_step, depth_append_singleton, h.brackets]
  rcases x.step_cases c with ⟨hopens, hout, hkept, -⟩ | ⟨-, hkept, hpending⟩ |
    ⟨-, hparen, hbracket, hkept, hpending⟩
  · -- An opener outside of all groups dangles until something behind it is closed.
    have hclosed := h.outside_iff.1 hout
    obtain ⟨front, hs, hsub⟩ := h.apart hclosed.not_dangles
    have hdangles : Dangles (s ++ [c]) := ⟨s, [c], rfl, hclosed, .singleton hopens⟩
    refine ⟨hparens, hbrackets, ?_, fun hnot => absurd hdangles hnot⟩
    have hopener : (openerKept c).reverse.Sublist [c] := by
      unfold openerKept
      split <;> simp
    rw [hkept, List.reverse_append, List.reverse_append]
    refine List.Sublist.append ?_ hopener
    conv => rhs; rw [hs]
    exact hsub.append (List.Sublist.refl _)
  · -- What is kept stands in front of the closer, so it does not matter where the cut is.
    have hsub : (x.step c).kept.reverse.Sublist s := hkept ▸ h.kept
    have hlonger := hsub.trans (List.sublist_append_left s [c])
    refine ⟨hparens, hbrackets, hlonger, fun _ => ?_⟩
    rcases hpending with hpending | hpending
    · exact ⟨s, by rw [hpending, List.reverse_singleton], hsub⟩
    · exact ⟨s ++ [c], by rw [hpending, List.reverse_nil, List.append_nil], hlonger⟩
  · refine ⟨hparens, hbrackets, ?_, fun hnot => ?_⟩
    · exact hkept ▸ h.kept.trans (List.sublist_append_left s [c])
    · obtain ⟨front, hs, hsub⟩ := h.apart fun hdangles =>
        hnot (hdangles.concat (fun hc => h.parens ▸ hparen hc) fun hc => h.brackets ▸ hbracket hc)
      refine ⟨front, ?_, hkept ▸ hsub⟩
      rw [hpending, List.reverse_cons, ← List.append_assoc, ← hs]

theorem follows_foldl (s : List Char) : (s.foldl Collapse.step .start).Follows s := by
  induction s using List.reverseRecOn with
  | nil => exact ⟨rfl, rfl, .slnil, fun _ => ⟨[], rfl, .slnil⟩⟩
  | append_singleton s c ih =>
    rw [List.foldl_append]
    exact ih.step c

theorem foldl_unclosed (hfront : Closed front) (h : Unclosed (c :: rest)) :
    ((front ++ c :: rest).foldl Collapse.step .start).kept =
        openerKept c ++
          ((front.foldl Collapse.step .start).pending ++ (front.foldl Collapse.step .start).kept) ∧
      ((front ++ c :: rest).foldl Collapse.step .start).pending =
        (c :: rest).reverse ++ (front.foldl Collapse.step .start).pending := by
  induction rest using List.reverseRecOn with
  | nil =>
    have hout := (follows_foldl front).outside_iff.2 hfront
    have hopens : c = '(' ∨ c = '[' := by simpa using h.opens
    rw [List.foldl_append, List.foldl_cons, List.foldl_nil]
    rcases step_cases (front.foldl Collapse.step .start) c with ⟨-, -, hkept, hpending⟩ |
      ⟨hcloses, -⟩ | ⟨hin, -⟩
    · exact ⟨hkept, hpending⟩
    · rcases hcloses with ⟨rfl, -⟩ | ⟨rfl, -⟩ <;> simp at hopens
    · simp [hin hopens] at hout
  | append_singleton rest d ih =>
    have hrest := h.of_concat
    obtain ⟨hkept, hpending⟩ := ih hrest
    have hfollows := follows_foldl (front ++ c :: rest)
    rw [← List.cons_append, ← List.append_assoc, List.foldl_append, List.foldl_cons, List.foldl_nil]
    rcases step_cases ((front ++ c :: rest).foldl Collapse.step .start) d with ⟨-, hout, -⟩ |
      ⟨hcloses, -⟩ | ⟨-, -, -, hkept', hpending'⟩
    · exact absurd (hfollows.outside_iff.1 hout) (not_closed_of_unclosed hfront hrest)
    · rw [hfollows.parens, hfollows.brackets, depth_parens_unclosed hfront hrest,
        depth_brackets_unclosed hfront hrest, ← Nat.pos_iff_ne_zero, ← Nat.pos_iff_ne_zero,
        List.count_pos_iff, List.count_pos_iff] at hcloses
      rcases hcloses with ⟨rfl, hmem⟩ | ⟨rfl, hmem⟩
      · exact absurd (pair_sublist_concat.2 (.inr ⟨rfl, hmem⟩)) h.parens
      · exact absurd (pair_sublist_concat.2 (.inr ⟨rfl, hmem⟩)) h.brackets
    · exact ⟨hkept'.trans hkept, by rw [hpending', hpending]; simp⟩

end Collapse

section
variable {s front rest u v : List Char} {c d e : Char}

theorem exists_pair_of_sublist (h : (u ++ d :: e :: v).Sublist s) :
    ∃ x y z, s = x ++ d :: (y ++ e :: z) ∧ u.Sublist x ∧ v.Sublist z := by
  obtain ⟨x₁, r, rfl, hu, hr⟩ := List.append_sublist_iff.1 h
  obtain ⟨x₂, r, rfl, hd, hr⟩ := List.cons_sublist_iff.1 hr
  obtain ⟨y₂, z₂, rfl, he, hv⟩ := List.cons_sublist_iff.1 hr
  obtain ⟨x₂, y₁, rfl⟩ := List.append_of_mem hd
  obtain ⟨y₂, z₁, rfl⟩ := List.append_of_mem he
  refine ⟨x₁ ++ x₂, y₁ ++ y₂, z₁ ++ z₂, by simp, ?_, ?_⟩
  · exact hu.trans (List.sublist_append_left x₁ x₂)
  · exact hv.trans (List.sublist_append_right z₁ z₂)

theorem collapse_sublist (h : ¬Dangles s) : (collapse s).Sublist s := by
  obtain ⟨front, hs, hsub⟩ := (Collapse.follows_foldl s).apart h
  rw [collapse, Collapse.finish, List.reverse_append]
  conv => rhs; rw [hs]
  exact hsub.append (List.Sublist.refl _)

theorem collapse_unclosed (hfront : Closed front) (h : Unclosed (c :: rest)) :
    ∃ taken kept tail, front = taken ++ tail ∧ kept.Sublist taken ∧ collapse front = kept ++ tail ∧
      collapse (front ++ c :: rest) =
        kept ++ (tail ++ Collapse.openerKept c) ++ (tail ++ c :: rest) := by
  obtain ⟨taken, htaken, hsub⟩ := (Collapse.follows_foldl front).apart hfront.not_dangles
  obtain ⟨hkept, hpending⟩ := Collapse.foldl_unclosed hfront h
  have hopener : (Collapse.openerKept c).reverse = Collapse.openerKept c := by
    unfold Collapse.openerKept
    split <;> rfl
  refine ⟨taken, _, _, htaken, hsub, ?_, ?_⟩
  · rw [collapse, Collapse.finish, List.reverse_append]
  · rw [collapse, Collapse.finish, hkept, hpending]
    simp [hopener]

/-- Unless a text dangles, collapsing it leaves a subsequence of it, and an emptied group in the
result comes from an opener and a closer behind it. What dangles is kept as it stands, but in front
of it the text from the last cut up to the opener is there once more. -/
theorem collapse_removes (s : List Char) :
    (¬Dangles s → (collapse s).Sublist s ∧
      ∀ u v, collapse s = u ++ '(' :: ')' :: v →
        ∃ x y z, s = x ++ '(' :: (y ++ ')' :: z) ∧ u.Sublist x ∧ v.Sublist z) ∧
    ∀ front c rest, s = front ++ c :: rest → Closed front → Unclosed (c :: rest) →
      ∃ taken kept tail, front = taken ++ tail ∧ kept.Sublist taken ∧
        collapse front = kept ++ tail ∧
          collapse s = kept ++ (tail ++ Collapse.openerKept c) ++ (tail ++ c :: rest) := by
  refine ⟨fun h => ⟨collapse_sublist h, fun u v heq => ?_⟩, ?_⟩
  · exact exists_pair_of_sublist (heq ▸ collapse_sublist h)
  · rintro front c rest rfl hfront hrest
    exact collapse_unclosed hfront hrest

def overlapping : List Char := "a([b)] u(x(y) z".toList

def unended : List Char := "a(b) u(x".toList

theorem collapse_removes_overlapping :
    ¬Dangles overlapping ∧ (collapse overlapping).Sublist overlapping ∧
      Closed "a(b) u".toList ∧ Unclosed ('(' :: "x".toList) ∧
      ∃ taken kept tail, "a(b) u".toList = taken ++ tail ∧ kept.Sublist taken ∧
        collapse "a(b) u".toList = kept ++ tail ∧
          collapse unended = kept ++ (tail ++ ['(']) ++ (tail ++ '(' :: "x".toList) := by
  have hnot : ¬Dangles overlapping := by decide +kernel
  have hfront : Closed "a(b) u".toList := by decide +kernel
  have hrest : Unclosed ('(' :: "x".toList) := by decide +kernel
  exact ⟨hnot, ((collapse_removes overlapping).1 hnot).1, hfront, hrest,
    (collapse_removes unended).2 _ _ _ (by decide +kernel) hfront hrest⟩

/-- The closer that is copied again closes the opener in front of it. -/
theorem closer_doubled :
    collapse ")(".toList = ")()(".toList ∧ ¬(collapse ")(".toList).Sublist ")(".toList ∧
      ¬['(', ')'].Sublist ")(".toList := by
  decide +kernel

end

end DesignDeps.Skeleton
