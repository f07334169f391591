import DesignDeps.Proofs.Text.Search
import DesignDeps.Skeleton

/-!
# Groups that nest

`Nested` texts are those in which every group is closed in its turn. Inside of a group a nested text
leaves no trace, so a text that is read outside of all groups adds to the result what `Adds` says:
plain text adds itself, a parenthesis group an empty one, and a bracket group nothing. Spacing the
parameter groups keeps a text nested.
-/

namespace DesignDeps.Skeleton

open Text

def isGroupMark (c : Char) : Bool :=
  c == '(' || c == ')' || c == '[' || c == ']'

/-- Every group is closed, and by its own kind of closer. -/
inductive Nested : List Char → Prop
  | nil : Nested []
  | char {c s} : isGroupMark c = false → Nested s → Nested (c :: s)
  | parens {s t} : Nested s → Nested t → Nested ('(' :: (s ++ ')' :: t))
  | brackets {s t} : Nested s → Nested t → Nested ('[' :: (s ++ ']' :: t))

theorem isGroupMark_of_class {p : Char → Bool} {c : Char} (hc : p c = true)
    (hp : ['(', ')', '[', ']'].all (!p ·) = true) : isGroupMark c = false := by
  have hne : ∀ d ∈ ['(', ')', '[', ']'], c ≠ d := fun d hd =>
    ne_of_class hc (by simpa using List.all_eq_true.1 hp d hd)
  simpa [isGroupMark, and_assoc] using hne

theorem Nested.tail {c : Char} {s : List Char} (h : Nested (c :: s))
    (hc : isGroupMark c = false) : Nested s := by
  cases h with
  | char _ h => exact h
  | parens => simp [isGroupMark] at hc
  | brackets => simp [isGroupMark] at hc

theorem Nested.of_append {s t : List Char} (h : Nested (s ++ t))
    (hs : ∀ c ∈ s, isGroupMark c = false) : Nested t := by
  induction s with
  | nil => exact h
  | cons c s ih =>
    obtain ⟨hc, hs⟩ := List.forall_mem_cons.1 hs
    exact ih (h.tail hc) hs

-- ---------------------------------------------------------------------------
-- Deciding whether groups nest
-- ---------------------------------------------------------------------------

section
variable {s awaited : List Char}

/-- Whether a text closes every group it opens, and besides them those whose closers are awaited,
the innermost first. -/
def closes : List Char → List Char → Bool
  | awaited, [] => awaited.isEmpty
  | awaited, c :: s =>
    if c = '(' then closes (')' :: awaited) s
    else if c = '[' then closes (']' :: awaited) s
    else if isGroupMark c then
      match awaited with
      | [] => false
      | d :: awaited => c == d && closes awaited s
    else closes awaited s

def Closing : List Char → List Char → Prop
  | [], s => Nested s
  | d :: awaited, s => ∃ u v, s = u ++ d :: v ∧ Nested u ∧ Closing awaited v

theorem Closing.prepend {w : List Char} (hw : ∀ {t}, Nested t → Nested (w ++ t))
    (h : Closing awaited s) : Closing awaited (w ++ s) := by
  cases awaited with
  | nil => exact hw h
  | cons d awaited =>
    obtain ⟨u, v, rfl, hu, hv⟩ := h
    exact ⟨w ++ u, v, (List.append_assoc ..).symm, hw hu, hv⟩

theorem closes_sound (h : closes awaited s = true) : Closing awaited s := by
  fun_induction closes awaited s with
  | case1 awaited =>
    obtain rfl := List.isEmpty_iff.1 h
    exact .nil
  | case2 awaited s ih =>
    obtain ⟨u, v, rfl, hu, hv⟩ := ih h
    have hopen := hv.prepend (w := '(' :: (u ++ [')'])) fun ht => by
      simpa using Nested.parens hu ht
    simpa using hopen
  | case3 awaited s _ ih =>
    obtain ⟨u, v, rfl, hu, hv⟩ := ih h
    have hopen := hv.prepend (w := '[' :: (u ++ [']'])) fun ht => by
      simpa using Nested.brackets hu ht
    simpa using hopen
  | case4 => cases h
  | case5 c s _ _ _ d awaited ih =>
    obtain ⟨hd, hrest⟩ := Bool.and_eq_true_iff.1 h
    obtain rfl := beq_iff_eq.1 hd
    exact ⟨[], s, rfl, .nil, ih hrest⟩
  | case6 awaited c s _ _ hmark ih =>
    exact (ih h).prepend (w := [c]) fun ht => .char (by simpa using hmark) ht

theorem closes_nested (h : Nested s) (awaited t : List Char) :
    closes awaited (s ++ t) = closes awaited t := by
  induction h generalizing awaited t with
  | nil => rfl
  | @char c s hc _ ih =>
    have hparen : c ≠ '(' := by rintro rfl; cases hc
    have hbracket : c ≠ '[' := by rintro rfl; cases hc
    simp [closes, hparen, hbracket, hc, ih]
  | parens _ _ ihs iht => simp [closes, ihs, iht, isGroupMark]
  | brackets _ _ ihs iht => simp [closes, ihs, iht, isGroupMark]

theorem nested_iff_closes : Nested s ↔ closes [] s = true := by
  constructor
  · intro h
    simpa [closes] using closes_nested h [] []
  · exact closes_sound

instance (s : List Char) : Decidable (Nested s) :=
  decidable_of_iff _ nested_iff_closes.symm

end

-- ---------------------------------------------------------------------------
-- Inside of a group
-- ---------------------------------------------------------------------------

namespace Collapse

variable {x : Collapse} {s : List Char}

theorem step_of_not_mark {c : Char} (h : isGroupMark c = false) :
    x.step c = { x with pending := c :: x.pending } := by
  simp only [isGroupMark, Bool.or_eq_false_iff, beq_eq_false_iff_ne] at h
  obtain ⟨⟨⟨h₁, h₂⟩, h₃⟩, h₄⟩ := h
  simp [step, h₁, h₂, h₃, h₄]

theorem foldl_nested (h : Nested s) (hin : x.outside = false) :
    ∃ pending, s.foldl step x = { x with pending := pending } := by
  induction h generalizing x with
  | nil => exact ⟨x.pending, rfl⟩
  | @char c s hc _ ih =>
    rw [List.foldl_cons, step_of_not_mark hc]
    exact ih (x := { x with pending := c :: x.pending }) hin
  | @parens s t _ _ ihs iht =>
    have hopen : x.step '(' = ⟨x.kept, '(' :: x.pending, x.parens + 1, x.brackets⟩ := by
      simp [step, hin]
    obtain ⟨pending, hs⟩ := ihs
      (x := ⟨x.kept, '(' :: x.pending, x.parens + 1, x.brackets⟩) (by simp [outside])
    rw [List.foldl_cons, hopen, List.foldl_append, hs, List.foldl_cons]
    exact iht (x := ⟨x.kept, [')'], x.parens, x.brackets⟩) hin
  | @brackets s t _ _ ihs iht =>
    have hopen : x.step '[' = ⟨x.kept, '[' :: x.pending, x.parens, x.brackets + 1⟩ := by
      simp [step, hin]
    obtain ⟨pending, hs⟩ := ihs
      (x := ⟨x.kept, '[' :: x.pending, x.parens, x.brackets + 1⟩) (by simp [outside])
    rw [List.foldl_cons, hopen, List.foldl_append, hs, List.foldl_cons]
    exact iht (x := ⟨x.kept, [], x.parens, x.brackets⟩) hin

end Collapse

-- ---------------------------------------------------------------------------
-- Outside of all groups
-- ---------------------------------------------------------------------------

def Adds (s t : List Char) : Prop :=
  ∀ x : Collapse, x.outside = true →
    (s.foldl Collapse.step x).outside = true ∧
      (s.foldl Collapse.step x).finish = x.finish ++ t

section
variable {s s' t t' : List Char}

theorem Adds.nil : Adds [] [] :=
  fun _ hout => ⟨hout, (List.append_nil _).symm⟩

theorem Adds.append (h : Adds s t) (h' : Adds s' t') : Adds (s ++ s') (t ++ t') := by
  intro x hout
  obtain ⟨hmid, hfinish⟩ := h x hout
  obtain ⟨hend, hfinish'⟩ := h' _ hmid
  rw [List.foldl_append]
  exact ⟨hend, by rw [hfinish', hfinish, List.append_assoc]⟩

theorem adds_plain (h : ∀ c ∈ s, isGroupMark c = false) : Adds s s := by
  induction s with
  | nil => exact .nil
  | cons c s ih =>
    obtain ⟨hc, hs⟩ := List.forall_mem_cons.1 h
    have hfirst : Adds [c] [c] := by
      intro x hout
      rw [List.foldl_cons, List.foldl_nil, Collapse.step_of_not_mark hc]
      exact ⟨hout, by simp [Collapse.finish]⟩
    exact hfirst.append (ih hs)

theorem adds_parens (h : Nested s) : Adds ('(' :: (s ++ [')'])) ['(', ')'] := by
  intro x hout
  have hopen : x.step '(' =
      ⟨'(' :: (x.pending ++ x.kept), '(' :: x.pending, x.parens + 1, x.brackets⟩ := by
    simp [Collapse.step, hout]
  obtain ⟨pending, hs⟩ := Collapse.foldl_nested h
    (x := ⟨'(' :: (x.pending ++ x.kept), '(' :: x.pending, x.parens + 1, x.brackets⟩)
    (by simp [Collapse.outside])
  rw [List.foldl_cons, hopen, List.foldl_append, hs]
  exact ⟨hout, by simp [Collapse.step, Collapse.finish]⟩

theorem adds_brackets (h : Nested s) : Adds ('[' :: (s ++ [']'])) [] := by
  intro x hout
  have hopen : x.step '[' =
      ⟨x.pending ++ x.kept, '[' :: x.pending, x.parens, x.brackets + 1⟩ := by
    simp [Collapse.step, hout]
  obtain ⟨pending, hs⟩ := Collapse.foldl_nested h
    (x := ⟨x.pending ++ x.kept, '[' :: x.pending, x.parens, x.brackets + 1⟩)
    (by simp [Collapse.outside])
  rw [List.foldl_cons, hopen, List.foldl_append, hs]
  exact ⟨hout, by simp [Collapse.step, Collapse.finish]⟩

theorem collapse_of_adds (h : Adds s t) : collapse s = t := by
  obtain ⟨-, hfinish⟩ := h .start rfl
  simpa [collapse, Collapse.start, Collapse.finish] using hfinish

end

-- ---------------------------------------------------------------------------
-- Parameter groups
-- ---------------------------------------------------------------------------

section
variable {s t : List Char} {d : Char}

theorem paramOpen_read_eq_none {c : Char} (h : c ≠ '#') (r : List Char) :
    paramOpen.read (c :: r) = none := by
  show readParamOpen (c :: r) = none
  unfold readParamOpen
  split
  · next heq => exact absurd (List.cons.inj heq).1 h
  · rfl

theorem spaceParams_skip (h : '#' ∉ s) : spaceParams (s ++ t) = s ++ spaceParams t :=
  Pattern.replaceAll_skip (Pattern.skips_of_forall fun _ hc =>
    paramOpen_read_eq_none (ne_of_mem_of_not_mem hc h))

theorem spaceParams_cons {c : Char} (h : c ≠ '#') : spaceParams (c :: t) = c :: spaceParams t :=
  spaceParams_skip (s := [c]) (by simpa using h.symm)

theorem spaceParams_open {gap : List Char} (h : ∀ c ∈ gap, isBlank c = true) :
    spaceParams ('#' :: (gap ++ '(' :: t)) = ' ' :: '#' :: '(' :: spaceParams t := by
  have hread : paramOpen.read ('#' :: (gap ++ '(' :: t)) = some ((), t) := by
    show readParamOpen ('#' :: (gap ++ '(' :: t)) = some ((), t)
    unfold readParamOpen
    simp only
    rw [dropWhile_run h (by rintro _ ⟨⟩; decide)]
    rfl
  exact Pattern.replaceAll_read hread

theorem paramOpen_read_append (hd : isBlank d = false) (hparen : d ≠ '(') (c : Char)
    (s : List Char) :
    paramOpen.read (c :: (s ++ d :: t)) =
      (paramOpen.read (c :: s)).map fun r => (r.1, r.2 ++ d :: t) := by
  by_cases hc : c = '#'
  · subst hc
    show readParamOpen ('#' :: (s ++ d :: t)) = (readParamOpen ('#' :: s)).map _
    unfold readParamOpen
    simp only [List.dropWhile_append]
    cases s.dropWhile isBlank with
    | nil => simp [hd, hparen]
    | cons e r => by_cases he : e = '(' <;> simp [he]
  · rw [paramOpen_read_eq_none hc, paramOpen_read_eq_none hc, Option.map_none]

theorem spaceParams_append (hd : isBlank d = false) (hparen : d ≠ '(') (hhash : d ≠ '#') :
    spaceParams (s ++ d :: t) = spaceParams s ++ d :: spaceParams t := by
  rw [← spaceParams_cons hhash]
  exact Pattern.replaceAll_append (paramOpen_read_append hd hparen)

theorem spaceParams_append_paren :
    spaceParams (s ++ ')' :: t) = spaceParams s ++ ')' :: spaceParams t :=
  spaceParams_append (by decide) (by decide) (by decide)

theorem spaceParams_append_bracket :
    spaceParams (s ++ ']' :: t) = spaceParams s ++ ']' :: spaceParams t :=
  spaceParams_append (by decide) (by decide) (by decide)

theorem readParamOpen_eq_some {rest : List Char} {c : Char} {u : Unit}
    (h : paramOpen.read (c :: s) = some (u, rest)) :
    c = '#' ∧ ∃ gap, (∀ b ∈ gap, isBlank b = true) ∧ s = gap ++ '(' :: rest := by
  replace h : readParamOpen (c :: s) = some (u, rest) := h
  unfold readParamOpen at h
  split at h
  · next s' heq =>
    obtain ⟨rfl, rfl⟩ := List.cons.inj heq
    split at h
    · next hdrop =>
      cases h
      refine ⟨rfl, s.takeWhile isBlank, fun b hb => List.mem_takeWhile_imp hb, ?_⟩
      rw [← hdrop, List.takeWhile_append_dropWhile]
    · cases h
  · cases h

theorem Nested.spaceParams (h : Nested s) : Nested (spaceParams s) := by
  induction h with
  | nil =>
    rw [Skeleton.spaceParams, Pattern.replaceAll_nil]
    exact .nil
  | @char c s hc _ ih =>
    cases hread : paramOpen.read (c :: s) with
    | none =>
      rw [Skeleton.spaceParams, Pattern.replaceAll_cons, hread]
      exact .char hc ih
    | some r =>
      obtain ⟨rfl, gap, hgap, rfl⟩ := readParamOpen_eq_some hread
      have hhash : '#' ∉ gap := fun hmem => absurd (hgap _ hmem) (by decide)
      rw [spaceParams_skip hhash, spaceParams_cons (by decide)] at ih
      rw [spaceParams_open hgap]
      exact .char (by decide)
        (.char hc (ih.of_append fun b hb => isGroupMark_of_class (hgap b hb) (by decide)))
  | parens _ _ ihs iht =>
    rw [spaceParams_cons (by decide), spaceParams_append_paren]
    exact .parens ihs iht
  | brackets _ _ ihs iht =>
    rw [spaceParams_cons (by decide), spaceParams_append_bracket]
    exact .brackets ihs iht

end

-- ---------------------------------------------------------------------------
-- Pieces of a text
-- ---------------------------------------------------------------------------

def Becomes (s t : List Char) : Prop :=
  ∀ rest, ∃ s', spaceParams (s ++ rest) = s' ++ spaceParams rest ∧ Adds s' t

section
variable {s s' t t' : List Char}

theorem Becomes.nil : Becomes [] [] :=
  fun _ => ⟨[], rfl, .nil⟩

theorem Becomes.append (h : Becomes s t) (h' : Becomes s' t') : Becomes (s ++ s') (t ++ t') := by
  intro rest
  obtain ⟨u, hu, hadds⟩ := h (s' ++ rest)
  obtain ⟨u', hu', hadds'⟩ := h' rest
  exact ⟨u ++ u', by rw [List.append_assoc, hu, hu', List.append_assoc], hadds.append hadds'⟩

theorem becomes_plain (hhash : '#' ∉ s) (hs : ∀ c ∈ s, isGroupMark c = false) : Becomes s s :=
  fun _ => ⟨s, spaceParams_skip hhash, adds_plain hs⟩

theorem becomes_run {p : Char → Bool} (hs : ∀ c ∈ s, p c = true)
    (hp : ['#', '(', ')', '[', ']'].all (!p ·) = true) : Becomes s s := by
  obtain ⟨hhash, hmarks⟩ := Bool.and_eq_true_iff.1 hp
  exact becomes_plain (fun hmem => by simp [hs _ hmem] at hhash)
    fun c hc => isGroupMark_of_class (hs c hc) hmarks

theorem becomes_parens (h : Nested s) : Becomes ('(' :: (s ++ [')'])) ['(', ')'] := by
  intro rest
  refine ⟨'(' :: (spaceParams s ++ [')']), ?_, adds_parens h.spaceParams⟩
  simp [spaceParams_cons, spaceParams_append_paren]

theorem becomes_brackets (h : Nested s) : Becomes ('[' :: (s ++ [']'])) [] := by
  intro rest
  refine ⟨'[' :: (spaceParams s ++ [']']), ?_, adds_brackets h.spaceParams⟩
  simp [spaceParams_cons, spaceParams_append_bracket]

theorem becomes_params {gap : List Char} (hgap : ∀ c ∈ gap, isBlank c = true) (h : Nested s) :
    Becomes ('#' :: (gap ++ '(' :: (s ++ [')']))) [' ', '#', '(', ')'] := by
  intro rest
  refine ⟨[' ', '#'] ++ '(' :: (spaceParams s ++ [')']), ?_,
    (adds_plain (by simp [isGroupMark])).append (adds_parens h.spaceParams)⟩
  simp [spaceParams_open hgap, spaceParams_append_paren]

theorem collapse_of_becomes (h : Becomes s t) : collapse (spaceParams s) = t := by
  obtain ⟨s', hs, hadds⟩ := h []
  rw [List.append_nil, spaceParams, spaceParams, Pattern.replaceAll_nil, List.append_nil] at hs
  rw [spaceParams, hs]
  exact collapse_of_adds hadds

end

end DesignDeps.Skeleton
