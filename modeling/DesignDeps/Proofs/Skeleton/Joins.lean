import DesignDeps.Proofs.Skeleton.Comments
import DesignDeps.Proofs.Skeleton.Groups

/-!
# Texts put behind each other

Each pass has something in hand while it goes through a text: a quote that may be closed, a comment
that has not ended, a `#` that waits for its parenthesis, a group that is open. Behind a complete
piece of a source it has nothing in hand, so the skeleton of what follows is the same as without the
piece (`ofText_append`).
-/

namespace DesignDeps.Skeleton

open Text

/-- The groups of a source are closed at its end. -/
def GroupsClosed (s : List Char) : Prop :=
  ((spaceParams (strip s)).foldl Collapse.step .start).outside = true

def EndsStatement (s : List Char) : Prop :=
  ∀ c ∈ (s.filter fun c => !isBlank c).getLast?, c = ';'

instance (s : List Char) : Decidable (EndsStatement s) :=
  Option.decidableForallMem _

/-- A piece of a source that leaves nothing open: no line, no comment, no statement and no group. -/
structure Complete (s : List Char) : Prop where
  line : s.getLast? = some '\n'
  comment : ¬['/', '*'] <:+: strip s
  statement : EndsStatement (strip s)
  groups : GroupsClosed s

section
variable {a b s t w rest front : List Char}

-- ---------------------------------------------------------------------------
-- Strings and comments
-- ---------------------------------------------------------------------------

theorem lineComment_line (s : List Char) (ht : ∀ d ∈ t.head?, d = '\n') :
    lineComment.replaceAll [] (s ++ t) =
      lineComment.replaceAll [] s ++ lineComment.replaceAll [] t := by
  have hdrop : t.dropWhile (· != '\n') = t := by
    cases t with
    | nil => rfl
    | cons d t => simp [ht d rfl]
  refine Pattern.replaceAll_append fun c s => ?_
  by_cases hslashes : ['/', '/'] <+: c :: s
  · obtain ⟨body, hbody⟩ := hslashes
    obtain ⟨rfl, rfl⟩ := List.cons.inj hbody
    show some ((), (body ++ t).dropWhile (· != '\n')) =
      some ((), body.dropWhile (· != '\n') ++ t)
    rw [List.dropWhile_append, hdrop]
    split <;> simp_all
  · have hslashes' : ¬['/', '/'] <+: c :: (s ++ t) := by
      intro hpair
      obtain ⟨rfl, hnext⟩ := List.cons_prefix_cons.1 hpair
      cases s with
      | nil => exact absurd (ht '/' (List.singleton_prefix_iff_head?_eq_some.1 hnext)) (by decide)
      | cons d s =>
        obtain ⟨rfl, -⟩ := List.cons_prefix_cons.1 hnext
        exact hslashes ⟨s, rfl⟩
    rw [Pattern.read_eq_none_of_pair pair_of_lineComment hslashes,
      Pattern.read_eq_none_of_pair pair_of_lineComment hslashes', Option.map_none]

theorem replaceAll_lines {p : Pattern Unit} (hbreak : ∀ r, p.read ('\n' :: r) = none)
    (hline : ∀ {t : List Char} (s : List Char), (∀ d ∈ t.head?, d = '\n') →
      p.replaceAll [] (s ++ t) = p.replaceAll [] s ++ p.replaceAll [] t)
    (h : s.getLast? = some '\n') (t : List Char) :
    p.replaceAll [] (s ++ t) = p.replaceAll [] s ++ p.replaceAll [] t ∧
      (p.replaceAll [] s).getLast? = some '\n' := by
  obtain ⟨s, rfl⟩ := List.getLast?_eq_some_iff.1 h
  have hcons : ∀ r, p.replaceAll [] ('\n' :: r) = '\n' :: p.replaceAll [] r := fun r => by
    rw [Pattern.replaceAll_cons, hbreak]
  rw [List.append_assoc, hline s (by simp), hline s (by simp), List.singleton_append, hcons, hcons,
    Pattern.replaceAll_nil]
  simp

theorem afterClose?_append_of_some (h : afterClose? s = some rest) (t : List Char) :
    afterClose? (s ++ t) = some (rest ++ t) := by
  fun_induction afterClose? s with
  | case1 => cases h
  | case2 r =>
    cases h
    rfl
  | case3 c s hopen ih =>
    rw [List.cons_append, afterClose?.eq_3, ih h]
    rintro r rfl heq
    cases s with
    | nil => cases h
    | cons d s =>
      obtain ⟨rfl, -⟩ := List.cons.inj heq
      exact hopen s rfl rfl

theorem afterClose?_suffix (h : afterClose? s = some rest) : rest <:+ s := by
  fun_induction afterClose? s with
  | case1 => cases h
  | case2 r =>
    cases h
    exact ⟨['*', '/'], rfl⟩
  | case3 c s _ ih => exact (ih h).trans (List.suffix_cons c s)

theorem readBlockComment_eq_some {u : Unit} (h : blockComment.read s = some (u, rest)) :
    ∃ body, s = '/' :: '*' :: body ∧ afterClose? body = some rest := by
  replace h : readBlockComment s = some (u, rest) := h
  unfold readBlockComment at h
  split at h
  · next body =>
    obtain ⟨r, hr, heq⟩ := Option.map_eq_some_iff.1 h
    cases heq
    exact ⟨body, rfl, hr⟩
  · cases h

theorem blockComment_append (hlast : s.getLast? ≠ some '/')
    (hopen : ¬['/', '*'] <:+: blockComment.replaceAll [] s) (t : List Char) :
    blockComment.replaceAll [] (s ++ t) =
      blockComment.replaceAll [] s ++ blockComment.replaceAll [] t := by
  fun_induction Pattern.replaceAll blockComment [] s with
  | case1 => rfl
  | case2 c s a rest hread ih =>
    obtain ⟨body, hs, hclose⟩ := readBlockComment_eq_some hread
    have hread' : blockComment.read (c :: s ++ t) = some ((), rest ++ t) := by
      rw [hs]
      show (afterClose? (body ++ t)).map ((), ·) = some ((), rest ++ t)
      rw [afterClose?_append_of_some hclose, Option.map_some]
    rw [Pattern.replaceAll_read hread']
    refine ih (fun hrest => hlast ?_) hopen
    obtain ⟨taken, htaken⟩ := afterClose?_suffix hclose
    rw [hs, ← htaken]
    simp [List.getLast?_cons, List.getLast?_append, hrest]
  | case3 c s hread ih =>
    rw [List.infix_cons_iff, not_or] at hopen
    have hread' : blockComment.read (c :: (s ++ t)) = none := by
      cases hr : blockComment.read (c :: (s ++ t)) with
      | none => rfl
      | some r =>
        obtain ⟨body, hs, -⟩ := readBlockComment_eq_some hr
        obtain ⟨rfl, hnext⟩ := List.cons.inj hs
        cases s with
        | nil => exact absurd rfl hlast
        | cons d s =>
          obtain ⟨rfl, -⟩ := List.cons.inj hnext
          refine absurd ?_ hopen.1
          rw [Pattern.replaceAll_cons,
            Pattern.read_eq_none_of_pair pair_of_blockComment (by simp)]
          exact ⟨_, rfl⟩
    rw [List.cons_append, Pattern.replaceAll_cons, hread', List.cons_append]
    refine congrArg (c :: ·) (ih (fun hs => hlast ?_) hopen.2)
    simp [List.getLast?_cons, hs]

theorem strip_append (h : s.getLast? = some '\n') (hopen : ¬['/', '*'] <:+: strip s) :
    strip (s ++ t) = strip s ++ strip t := by
  obtain ⟨hquoted, hlast⟩ := replaceAll_lines (quotedText_read_eq_none (by decide))
    quotedText_line h t
  obtain ⟨hline, hlast⟩ := replaceAll_lines
    (fun r => Pattern.read_eq_none_of_pair pair_of_lineComment (by simp)) lineComment_line hlast
    (quotedText.replaceAll [] t)
  rw [strip, hquoted, hline, blockComment_append (by simp [hlast]) hopen]
  rfl

-- ---------------------------------------------------------------------------
-- Groups
-- ---------------------------------------------------------------------------

/-- `y` has the same groups open as `x` and has collapsed the same text, but for `front` before
it. -/
structure Collapse.Behind (front : List Char) (x y : Collapse) : Prop where
  parens : y.parens = x.parens
  brackets : y.brackets = x.brackets
  outside : x.outside = true → y.pending ++ y.kept = x.pending ++ (x.kept ++ front)
  inside : x.outside = false → y.kept = x.kept ++ front

theorem Collapse.Behind.step {x y : Collapse} (h : Collapse.Behind front x y) (c : Char) :
    Collapse.Behind front (x.step c) (y.step c) := by
  obtain ⟨hparens, hbrackets, hout, hin⟩ := h
  have houtside : y.outside = x.outside := by simp [Collapse.outside, hparens, hbrackets]
  unfold Collapse.step
  rw [houtside, hparens, hbrackets]
  split_ifs
  all_goals exact ⟨rfl, rfl, by grind [Collapse.outside], by grind [Collapse.outside]⟩

theorem Collapse.Behind.foldl {x y : Collapse} (h : Collapse.Behind front x y) (s : List Char) :
    Collapse.Behind front (s.foldl Collapse.step x) (s.foldl Collapse.step y) := by
  induction s generalizing x y with
  | nil => exact h
  | cons c s ih => exact ih (h.step c)

theorem Collapse.outside_foldl {x : Collapse} (h : ∀ c ∈ s, isGroupMark c = false) :
    (s.foldl Collapse.step x).outside = x.outside := by
  induction s generalizing x with
  | nil => rfl
  | cons c s ih =>
    obtain ⟨hc, hs⟩ := List.forall_mem_cons.1 h
    rw [List.foldl_cons, ih hs, step_of_not_mark hc]
    rfl

theorem adds_of_outside (h : (s.foldl Collapse.step .start).outside = true) :
    Adds s (collapse s) := by
  intro y hout
  have hstart : Collapse.Behind (y.pending ++ y.kept) .start y := by
    obtain ⟨hparens, hbrackets⟩ : y.parens = 0 ∧ y.brackets = 0 := by
      simpa [Collapse.outside] using hout
    exact ⟨hparens, hbrackets, fun _ => rfl, by simp [Collapse.outside, Collapse.start]⟩
  have hend := hstart.foldl s
  refine ⟨?_, ?_⟩
  · simpa [Collapse.outside, hend.parens, hend.brackets] using h
  · simp [collapse, Collapse.finish, hend.outside h]

-- ---------------------------------------------------------------------------
-- Statements
-- ---------------------------------------------------------------------------

theorem endsStatement_iff :
    EndsStatement s ↔ (∀ c ∈ s, isBlank c = true) ∨
      ∃ front w, s = front ++ ';' :: w ∧ ∀ c ∈ w, isBlank c = true := by
  constructor
  · intro h
    induction s using List.reverseRecOn with
    | nil => exact .inl (by simp)
    | append_singleton s c ih =>
      cases hc : isBlank c with
      | false =>
        obtain rfl : c = ';' := h c (by simp [hc])
        exact .inr ⟨s, [], rfl, by simp⟩
      | true =>
        rcases ih (by simpa [EndsStatement, hc] using h) with hblank | ⟨front, w, rfl, hw⟩
        · exact .inl (by simpa [or_imp, forall_and, hc] using hblank)
        · exact .inr ⟨front, w ++ [c], by simp, by simpa [or_imp, forall_and, hc] using hw⟩
  · have hfilter : ∀ {w : List Char}, (∀ c ∈ w, isBlank c = true) →
        w.filter (fun c => !isBlank c) = [] := fun hw => by simpa [List.filter_eq_nil_iff] using hw
    rintro (hblank | ⟨front, w, rfl, hw⟩) c hc
    · simp [hfilter hblank] at hc
    · have hsemicolon : isBlank ';' = false := by decide
      simpa [hfilter hw, hsemicolon, eq_comm] using hc

theorem spaceParams_blanks_append (h : ∀ c ∈ w, isBlank c = true) (t : List Char) :
    spaceParams (w ++ t) = w ++ spaceParams t :=
  spaceParams_skip fun hmem => absurd (h _ hmem) (by decide)

theorem spaceParams_blanks (h : ∀ c ∈ w, isBlank c = true) : spaceParams w = w := by
  simpa [spaceParams, Pattern.replaceAll_nil] using spaceParams_blanks_append h []

theorem spaceParams_semicolon (s t : List Char) :
    spaceParams (s ++ ';' :: t) = spaceParams s ++ ';' :: spaceParams t :=
  spaceParams_append (by decide) (by decide) (by decide)

theorem spaceParams_ends (h : EndsStatement s) (t : List Char) :
    spaceParams (s ++ t) = spaceParams s ++ spaceParams t := by
  rcases endsStatement_iff.1 h with hblank | ⟨front, w, rfl, hw⟩
  · rw [spaceParams_blanks_append hblank, spaceParams_blanks hblank]
  · rw [List.append_assoc, List.cons_append, spaceParams_semicolon, spaceParams_semicolon,
      spaceParams_blanks_append hw, spaceParams_blanks hw, List.append_assoc, List.cons_append]

theorem ends_spaceParams (h : EndsStatement s) : EndsStatement (spaceParams s) := by
  rcases endsStatement_iff.1 h with hblank | ⟨front, w, rfl, hw⟩
  · rwa [spaceParams_blanks hblank]
  · rw [spaceParams_semicolon, spaceParams_blanks hw]
    exact endsStatement_iff.2 (.inr ⟨_, w, rfl, hw⟩)

theorem ends_collapse (h : EndsStatement s) (hout : (s.foldl Collapse.step .start).outside = true) :
    EndsStatement (collapse s) := by
  have hplain : ∀ {w : List Char}, (∀ c ∈ w, isBlank c = true) → ∀ c ∈ w, isGroupMark c = false :=
    fun hw c hc => isGroupMark_of_class (hw c hc) (by decide)
  rcases endsStatement_iff.1 h with hblank | ⟨front, w, rfl, hw⟩
  · rwa [collapse_of_adds (adds_plain (hplain hblank))]
  · have hlast : ∀ c ∈ ';' :: w, isGroupMark c = false :=
      List.forall_mem_cons.2 ⟨by decide, hplain hw⟩
    have hfront : (front.foldl Collapse.step .start).outside = true := by
      rwa [List.foldl_append, Collapse.outside_foldl hlast] at hout
    rw [collapse_of_adds ((adds_of_outside hfront).append (adds_plain hlast))]
    exact endsStatement_iff.2 (.inr ⟨_, w, rfl, hw⟩)

-- ---------------------------------------------------------------------------
-- Skeletons
-- ---------------------------------------------------------------------------

theorem spaceParams_strip_append (ha : Complete a) (b : List Char) :
    spaceParams (strip (a ++ b)) = spaceParams (strip a) ++ spaceParams (strip b) := by
  rw [strip_append ha.line ha.comment, spaceParams_ends ha.statement]

theorem Complete.closed_append (ha : Complete a) (hb : GroupsClosed b) : GroupsClosed (a ++ b) := by
  rw [GroupsClosed, spaceParams_strip_append ha, List.foldl_append]
  exact (adds_of_outside hb _ ha.groups).1

theorem Complete.ends (ha : Complete a) : EndsStatement (ofText a) :=
  ends_collapse (ends_spaceParams ha.statement) ha.groups

theorem ofText_append (ha : Complete a) (hb : GroupsClosed b) :
    ofText (a ++ b) = ofText a ++ ofText b := by
  rw [ofText, spaceParams_strip_append ha]
  exact collapse_of_adds ((adds_of_outside ha.groups).append (adds_of_outside hb))

end

end DesignDeps.Skeleton
