import DesignDeps.Proofs.Skeleton.Joins
import DesignDeps.Proofs.Text.Joints

/-!
# What stripping leaves of a text

Whatever the text, stripping leaves a subsequence of it in which there are neither two slashes nor a
block comment. Taking out comments joins no characters to the beginning or the end of a comment;
taking out strings can, and then the passes for comments take out what follows (`strip_complete`).
-/

namespace DesignDeps.Skeleton

open Text

section
variable {s t rest : List Char} {c d : Char} {u : Unit}

-- ---------------------------------------------------------------------------
-- Subsequences
-- ---------------------------------------------------------------------------

theorem readLineComment_eq_some (h : lineComment.read s = some (u, rest)) :
    rest <:+ s ∧ ∀ d ∈ rest.head?, d = '\n' := by
  replace h : readLineComment s = some (u, rest) := h
  unfold readLineComment at h
  split at h
  · next body =>
    cases h
    refine ⟨(List.dropWhile_suffix _).trans ⟨['/', '/'], rfl⟩, fun d hd => ?_⟩
    simpa [Option.mem_def.1 hd] using List.head?_dropWhile_not (· != '\n') body
  · cases h

theorem exists_of_afterClose? (h : afterClose? s = some rest) :
    ∃ body, s = body ++ '*' :: '/' :: rest := by
  fun_induction afterClose? s with
  | case1 => cases h
  | case2 r =>
    cases h
    exact ⟨[], rfl⟩
  | case3 c s _ ih =>
    obtain ⟨body, rfl⟩ := ih h
    exact ⟨c :: body, rfl⟩

theorem not_close_of_afterClose? (h : afterClose? s = none) : ¬['*', '/'] <:+: s := by
  fun_induction afterClose? s with
  | case1 => simp
  | case2 r => cases h
  | case3 c s hopen ih =>
    rw [List.infix_cons_iff, not_or]
    refine ⟨fun hfront => ?_, ih h⟩
    obtain ⟨rest, hrest⟩ := hfront
    obtain ⟨rfl, rfl⟩ := List.cons.inj hrest
    exact hopen rest rfl rfl

theorem consumes_quotedText : quotedText.Consumes :=
  readQuoted_suffix

theorem consumes_lineComment : lineComment.Consumes := fun h =>
  (readLineComment_eq_some h).1

theorem consumes_blockComment : blockComment.Consumes := fun h => by
  obtain ⟨body, rfl, hclose⟩ := readBlockComment_eq_some h
  exact (afterClose?_suffix hclose).trans ⟨['/', '*'], rfl⟩

theorem strip_sublist (s : List Char) : (strip s).Sublist s :=
  (Pattern.replaceAll_sublist consumes_blockComment _).trans
    ((Pattern.replaceAll_sublist consumes_lineComment _).trans
      (Pattern.replaceAll_sublist consumes_quotedText s))

-- ---------------------------------------------------------------------------
-- Line comments
-- ---------------------------------------------------------------------------

theorem eq_of_joins_lineComment (h : lineComment.Joins c d s) : d = '\n' := by
  induction h with
  | here _ hread hhead =>
    have hbreak := (readLineComment_eq_some hread).2
    rw [head?_lineComment fun e he => hbreak e he ▸ by decide] at hhead
    exact hbreak d hhead
  | past _ _ ih => exact ih
  | behind _ _ ih => exact ih

theorem not_slashes_lineComment (s : List Char) :
    ¬['/', '/'] <:+: lineComment.replaceAll [] s := by
  refine Pattern.not_pair_replaceAll (fun t => ?_) fun h => ?_
  · show readLineComment ('/' :: '/' :: t) ≠ none
    simp [readLineComment]
  · exact absurd (eq_of_joins_lineComment h) (by decide)

-- ---------------------------------------------------------------------------
-- Block comments
-- ---------------------------------------------------------------------------

theorem head?_blockComment (h : ∀ d ∈ s.head?, d ≠ '/') :
    (blockComment.replaceAll [] s).head? = s.head? := by
  cases s with
  | nil => rw [Pattern.replaceAll_nil]
  | cons c s =>
    rw [Pattern.replaceAll_cons, Pattern.read_eq_none_of_pair pair_of_blockComment fun hpair =>
      h c rfl (List.cons_prefix_cons.1 hpair).1.symm]
    rfl

theorem ne_of_joins_blockComment (hs : ¬['/', '/'] <:+: s) (h : blockComment.Joins c d s) :
    c ≠ '/' ∧ d ≠ '/' := by
  induction h with
  | @here a s rest _ hread hhead =>
    obtain ⟨body, rfl, hclose⟩ := readBlockComment_eq_some hread
    obtain ⟨inner, rfl⟩ := exists_of_afterClose? hclose
    have hfirst : c ≠ '/' := by
      rintro rfl
      exact hs ⟨[], _, rfl⟩
    have hrest : ∀ e ∈ rest.head?, e ≠ '/' := by
      rintro e he rfl
      obtain ⟨t, rfl⟩ := List.head?_eq_some_iff.1 he
      exact hs ⟨c :: '/' :: '*' :: (inner ++ ['*']), t, by simp⟩
    rw [head?_blockComment hrest] at hhead
    exact ⟨hfirst, hrest d hhead⟩
  | past _ _ ih => exact ih (not_pair_suffix hs (List.suffix_cons _ _))
  | behind hread _ ih => exact ih (not_pair_suffix hs (consumes_blockComment hread))

theorem not_slashes_blockComment (hs : ¬['/', '/'] <:+: s) :
    ¬['/', '/'] <:+: blockComment.replaceAll [] s := by
  intro h
  rcases Pattern.pair_of_replaceAll consumes_blockComment h with h | h
  · exact hs h
  · exact (ne_of_joins_blockComment hs h).1 rfl

theorem not_comment_blockComment (hs : ¬['/', '/'] <:+: s) (body : List Char) :
    ¬comment body <:+: blockComment.replaceAll [] s := by
  fun_induction Pattern.replaceAll blockComment [] s with
  | case1 => simp [comment, Lexeme.text]
  | case2 c s u rest hread ih => exact ih (not_pair_suffix hs (consumes_blockComment hread))
  | case3 c s hnone ih =>
    have hs' : ¬['/', '/'] <:+: s := not_pair_suffix hs (List.suffix_cons c s)
    rw [List.infix_cons_iff, not_or]
    refine ⟨fun hfront => ?_, ih hs'⟩
    obtain ⟨rfl, hnext⟩ := List.cons_prefix_cons.1 hfront
    obtain ⟨behind, hbehind⟩ := hnext
    have hstar : (blockComment.replaceAll [] s).head? = some '*' := by rw [← hbehind]; rfl
    rcases Pattern.joins_of_head? hnone hstar with hhead | hjoins
    · -- The beginning was left because nothing in the text ends it, so its end would be joined.
      obtain ⟨t, rfl⟩ := List.head?_eq_some_iff.1 hhead
      have hopen : afterClose? t = none := by
        replace hnone : readBlockComment ('/' :: '*' :: t) = none := hnone
        simpa [readBlockComment] using hnone
      have hlast : ¬['/', '/'] <:+: t := not_pair_suffix hs' (List.suffix_cons '*' t)
      have hclose : ['*', '/'] <:+: blockComment.replaceAll [] t := by
        rw [Pattern.replaceAll_cons, Pattern.read_eq_none_of_pair pair_of_blockComment (by simp)]
          at hbehind
        obtain ⟨-, hbehind⟩ := List.cons.inj hbehind
        exact ⟨body, behind, by simpa using hbehind⟩
      rcases Pattern.pair_of_replaceAll consumes_blockComment hclose with hpair | hjoins
      · exact not_close_of_afterClose? hopen hpair
      · exact (ne_of_joins_blockComment hlast hjoins).2 rfl
    · exact (ne_of_joins_blockComment hs hjoins).1 rfl

end

-- ---------------------------------------------------------------------------
-- All three passes
-- ---------------------------------------------------------------------------

def commentMarks : List (Char × Char) :=
  [('/', '/'), ('/', '*'), ('*', '/')]

/-- Taking out what `p` matches joins two characters to the beginning or the end of a comment. -/
def FormsMark (p : Pattern Unit) (s : List Char) : Prop :=
  ∃ mark ∈ commentMarks, p.Joins mark.1 mark.2 s

/-- One of the passes that strip `s` does so. -/
def FormsComment (s : List Char) : Prop :=
  FormsMark quotedText s ∨ FormsMark lineComment (quotedText.replaceAll [] s) ∨
    FormsMark blockComment (lineComment.replaceAll [] (quotedText.replaceAll [] s))

theorem not_formsMark_lineComment (s : List Char) : ¬FormsMark lineComment s := by
  rintro ⟨mark, hmark, hjoins⟩
  have hbreak := eq_of_joins_lineComment hjoins
  have hmarks : ∀ mark ∈ commentMarks, mark.2 ≠ '\n' := by decide
  exact hmarks mark hmark hbreak

theorem not_formsMark_blockComment {s : List Char} (hs : ¬['/', '/'] <:+: s) :
    ¬FormsMark blockComment s := by
  rintro ⟨mark, hmark, hjoins⟩
  obtain ⟨hfirst, hsecond⟩ := ne_of_joins_blockComment hs hjoins
  have hmarks : ∀ mark ∈ commentMarks, mark.1 = '/' ∨ mark.2 = '/' := by decide
  rcases hmarks mark hmark with h | h
  · exact hfirst h
  · exact hsecond h

/-- What is left is a subsequence of the text, without two slashes and without a block comment. Only
where strings are taken out can characters be joined to the beginning or the end of a comment. -/
theorem strip_complete (s : List Char) :
    (strip s).Sublist s ∧ ¬['/', '/'] <:+: strip s ∧ (∀ body, ¬comment body <:+: strip s) ∧
      (FormsComment s ↔ FormsMark quotedText s) := by
  have hslashes := not_slashes_lineComment (quotedText.replaceAll [] s)
  refine ⟨strip_sublist s, not_slashes_blockComment hslashes, not_comment_blockComment hslashes,
    fun h => ?_, .inl⟩
  rcases h with h | h | h
  · exact h
  · exact absurd h (not_formsMark_lineComment _)
  · exact absurd h (not_formsMark_blockComment hslashes)

/-- The two slashes around a string become a line comment, and the rest of the line is lost. -/
theorem slashes_joined :
    FormsComment "a/\"x\"/b".toList ∧ strip "a/\"x\"/b".toList = "a".toList := by
  have hstrip : strip "a/\"x\"/b".toList = "a".toList := by cbv
  have hhead : (quotedText.replaceAll [] "/b".toList).head? = some '/' := by cbv
  have hjoins : quotedText.Joins '/' '/' "a/\"x\"/b".toList := .past rfl (.here rfl rfl hhead)
  exact ⟨.inl ⟨('/', '/'), by decide, hjoins⟩, hstrip⟩

end DesignDeps.Skeleton
