import DesignDeps.Proofs.Text.Search
import DesignDeps.Skeleton
import Mathlib.Data.List.Infix

/-!
# Texts read as lexemes

A reader that goes through a text once divides it into string literals, comments and single
characters: `Reads`. Stripping goes through the text three times instead, once for each of them.
`strip_lexemes` says where both come to the same: as long as no block comment holds a quote or two
slashes, and no slash stands where taking something out gives it another meaning. There a block
comment between two blanks is as good as none (`strip_comment`).
-/

namespace DesignDeps.Skeleton

open Text

-- ---------------------------------------------------------------------------
-- What the passes take out
-- ---------------------------------------------------------------------------

section
variable {s t body : List Char} {c : Char}

theorem quotedText_read_eq_none (h : c ≠ '\"') (r : List Char) :
    quotedText.read (c :: r) = none := by
  show readQuoted (c :: r) = none
  unfold readQuoted
  split
  · next heq => exact absurd (List.cons.inj heq).1 h
  · rfl

theorem quotedText_skip (h : '\"' ∉ s) :
    quotedText.replaceAll [] (s ++ t) = s ++ quotedText.replaceAll [] t :=
  Pattern.replaceAll_skip (Pattern.skips_of_forall fun _ hc =>
    quotedText_read_eq_none (ne_of_mem_of_not_mem hc h))

theorem quotedText_read (hquote : '\"' ∉ body) (hline : '\n' ∉ body) (t : List Char) :
    quotedText.read ('\"' :: (body ++ '\"' :: t)) = some ((), t) := by
  have hbody : ∀ c ∈ body, (c != '\"' && c != '\n') = true := by
    intro c hc
    simpa using ⟨ne_of_mem_of_not_mem hc hquote, ne_of_mem_of_not_mem hc hline⟩
  show readQuoted ('\"' :: (body ++ '\"' :: t)) = some ((), t)
  unfold readQuoted
  simp only
  rw [dropWhile_run hbody (by rintro _ ⟨⟩; decide)]
  rfl

theorem quotedText_read_open (h : '\"' ∉ s.takeWhile (· ≠ '\n')) :
    quotedText.read ('\"' :: s) = none := by
  show readQuoted ('\"' :: s) = none
  unfold readQuoted
  simp only
  split
  · next rest hdrop =>
    refine absurd ?_ h
    have hbody : ∀ c ∈ s.takeWhile (fun c => c != '\"' && c != '\n'), decide (c ≠ '\n') = true := by
      intro c hc
      have hboth := List.mem_takeWhile_imp (p := fun c => c != '\"' && c != '\n') hc
      simpa using (Bool.and_eq_true_iff.1 hboth).2
    rw [← List.takeWhile_append_dropWhile (p := fun c => c != '\"' && c != '\n') (l := s), hdrop,
      List.takeWhile_append_of_pos hbody]
    simp
  · rfl

theorem quotedText_line (s : List Char) (ht : ∀ d ∈ t.head?, d = '\n') :
    quotedText.replaceAll [] (s ++ t) =
      quotedText.replaceAll [] s ++ quotedText.replaceAll [] t := by
  refine Pattern.replaceAll_append fun c s => ?_
  by_cases hc : c = '\"'
  · subst hc
    show readQuoted ('\"' :: (s ++ t)) = (readQuoted ('\"' :: s)).map _
    unfold readQuoted
    simp only [List.dropWhile_append]
    cases s.dropWhile fun c => c != '\"' && c != '\n' with
    | nil =>
      cases t with
      | nil => rfl
      | cons d t =>
        obtain rfl := ht d rfl
        rfl
    | cons d r => by_cases hd : d = '\"' <;> simp [hd]
  · rw [quotedText_read_eq_none hc, quotedText_read_eq_none hc, Option.map_none]

theorem readQuoted_suffix {u : Unit} {rest : List Char} (h : quotedText.read s = some (u, rest)) :
    rest <:+ s := by
  replace h : readQuoted s = some (u, rest) := h
  unfold readQuoted at h
  split at h
  · next s =>
    split at h
    · next hdrop =>
      cases h
      exact (hdrop ▸ List.suffix_cons _ _).trans
        ((List.dropWhile_suffix _).trans (List.suffix_cons _ _))
    · cases h
  · cases h

theorem head?_quotedText (h : ∀ d ∈ s.head?, d ≠ '\"') :
    (quotedText.replaceAll [] s).head? = s.head? := by
  cases s with
  | nil => rw [Pattern.replaceAll_nil]
  | cons c s =>
    rw [Pattern.replaceAll_cons, quotedText_read_eq_none (h c rfl)]
    rfl

theorem pair_of_lineComment {r : Unit × List Char} (h : lineComment.read s = some r) :
    ['/', '/'] <+: s := by
  replace h : readLineComment s = some r := h
  unfold readLineComment at h
  split at h
  · exact ⟨_, rfl⟩
  · cases h

theorem head?_lineComment (h : ∀ d ∈ s.head?, d ≠ '/') :
    (lineComment.replaceAll [] s).head? = s.head? := by
  cases s with
  | nil => rw [Pattern.replaceAll_nil]
  | cons c s =>
    rw [Pattern.replaceAll_cons, Pattern.read_eq_none_of_pair pair_of_lineComment fun hpair =>
      h c rfl (List.cons_prefix_cons.1 hpair).1.symm]
    rfl

theorem lineComment_skip (hs : ¬['/', '/'] <:+: s)
    (ht : s.getLast? = some '/' → ∀ d ∈ t.head?, d ≠ '/') :
    lineComment.replaceAll [] (s ++ t) = s ++ lineComment.replaceAll [] t :=
  Pattern.replaceAll_skip (Pattern.skips_of_pair pair_of_lineComment hs ht)

theorem lineComment_read (hline : '\n' ∉ body) (ht : ∀ d ∈ t.head?, d = '\n') :
    lineComment.read ('/' :: '/' :: (body ++ t)) = some ((), t) := by
  have hbody : ∀ c ∈ body, (c != '\n') = true := by
    intro c hc
    simpa using ne_of_mem_of_not_mem hc hline
  show readLineComment ('/' :: '/' :: (body ++ t)) = some ((), t)
  unfold readLineComment
  simp only
  rw [dropWhile_run hbody fun d hd => by simp [ht d hd]]

theorem pair_of_blockComment {r : Unit × List Char} (h : blockComment.read s = some r) :
    ['/', '*'] <+: s := by
  replace h : readBlockComment s = some r := h
  unfold readBlockComment at h
  split at h
  · exact ⟨_, rfl⟩
  · cases h

theorem blockComment_skip (hs : ¬['/', '*'] <:+: s)
    (ht : s.getLast? = some '/' → ∀ d ∈ t.head?, d ≠ '*') :
    blockComment.replaceAll [] (s ++ t) = s ++ blockComment.replaceAll [] t :=
  Pattern.replaceAll_skip (Pattern.skips_of_pair pair_of_blockComment hs ht)

theorem afterClose?_append (h : ¬['*', '/'] <:+: body) (t : List Char) :
    afterClose? (body ++ '*' :: '/' :: t) = some t := by
  induction body with
  | nil => rfl
  | cons c body ih =>
    rw [List.infix_cons_iff, not_or] at h
    have hopen : ∀ rest, c = '*' → body ++ '*' :: '/' :: t = '/' :: rest → False := by
      rintro rest rfl heq
      cases body with
      | nil => simp at heq
      | cons d body =>
        obtain ⟨rfl, -⟩ := List.cons.inj heq
        exact h.1 (by simp)
    rw [List.cons_append, afterClose?.eq_3 _ _ hopen]
    exact ih h.2

theorem blockComment_read (h : ¬['*', '/'] <:+: body) (t : List Char) :
    blockComment.read ('/' :: '*' :: (body ++ '*' :: '/' :: t)) = some ((), t) := by
  show readBlockComment ('/' :: '*' :: (body ++ '*' :: '/' :: t)) = some ((), t)
  unfold readBlockComment
  simp only [afterClose?_append h, Option.map_some]

theorem strip_of_plain (hquote : '\"' ∉ s) (hline : ¬['/', '/'] <:+: s)
    (hblock : ¬['/', '*'] <:+: s) : strip s = s := by
  have h₁ := quotedText_skip (t := []) hquote
  have h₂ := lineComment_skip (t := []) hline (by simp)
  have h₃ := blockComment_skip (t := []) hblock (by simp)
  simp only [List.append_nil, Pattern.replaceAll_nil] at h₁ h₂ h₃
  rw [strip, h₁, h₂, h₃]

end

-- ---------------------------------------------------------------------------
-- Lexemes
-- ---------------------------------------------------------------------------

inductive Lexeme
  | quoted (body : List Char)
  | lineComment (body : List Char)
  | blockComment (body : List Char)
  | char (c : Char)
  deriving DecidableEq

namespace Lexeme

/-- A line comment ends in front of the line break. -/
def text : Lexeme → List Char
  | quoted body => '\"' :: (body ++ ['\"'])
  | lineComment body => '/' :: '/' :: body
  | blockComment body => '/' :: '*' :: (body ++ ['*', '/'])
  | char c => [c]

/-- A reader finds this lexeme in front of the text `behind`. A quote that its line does not close
is a character like others; a block comment that nothing closes goes on to the end of the text. -/
def Begins (behind : List Char) : Lexeme → Prop
  | quoted body => '\"' ∉ body ∧ '\n' ∉ body
  | lineComment body => '\n' ∉ body ∧ ∀ d ∈ behind.head?, d = '\n'
  | blockComment body => ¬['*', '/'] <:+: body
  | char c =>
    (c = '\"' → '\"' ∉ behind.takeWhile (· ≠ '\n')) ∧
      (c = '/' → ∀ d ∈ behind.head?, d ≠ '/' ∧ d ≠ '*')

/-- The passes see the lexeme as the reader does, whatever they have taken out before. -/
def Clear (behind : List Char) : Lexeme → Prop
  | quoted _ | lineComment _ => True
  | blockComment body =>
    '\"' ∉ body ∧ ¬['/', '/'] <:+: body ∧ ∀ d ∈ behind.head?, d ≠ '\"' ∧ d ≠ '/'
  | char c => c = '/' → ∀ d ∈ behind.head?, d ≠ '\"'

-- Without it the test would go through all characters that there are.
instance (p : Char → Prop) [DecidablePred p] (s : List Char) : Decidable (∀ d ∈ s.head?, p d) :=
  Option.decidableForallMem s.head?

instance (behind : List Char) : (x : Lexeme) → Decidable (x.Begins behind)
  | quoted _ | lineComment _ | char _ => inferInstanceAs (Decidable (_ ∧ _))
  | blockComment _ => inferInstanceAs (Decidable (¬_))

instance (behind : List Char) : (x : Lexeme) → Decidable (x.Clear behind)
  | quoted _ | lineComment _ => .isTrue trivial
  | blockComment _ => inferInstanceAs (Decidable (_ ∧ _))
  | char _ => inferInstanceAs (Decidable (_ → _))

/-- What is left of the lexeme without strings and comments. -/
def kept : Lexeme → List Char
  | quoted _ | lineComment _ | blockComment _ => []
  | char c => [c]

end Lexeme

def comment (body : List Char) : List Char :=
  (Lexeme.blockComment body).text

def textOf (xs : List Lexeme) : List Char :=
  xs.flatMap Lexeme.text

def keptOf (xs : List Lexeme) : List Char :=
  xs.flatMap Lexeme.kept

/-- A reader that begins in front of `xs` comes to the text behind them. -/
def Reads : List Lexeme → List Char → Prop
  | [], _ => True
  | x :: xs, rest => x.Begins (textOf xs ++ rest) ∧ Reads xs rest

/-- None of the lexemes looks different to the passes. -/
def Clear : List Lexeme → List Char → Prop
  | [], _ => True
  | x :: xs, rest => x.Clear (textOf xs ++ rest) ∧ Clear xs rest

def decReads : (xs : List Lexeme) → (rest : List Char) → Decidable (Reads xs rest)
  | [], _ => .isTrue trivial
  | _ :: xs, rest =>
    have := decReads xs rest
    inferInstanceAs (Decidable (_ ∧ _))

def decClear : (xs : List Lexeme) → (rest : List Char) → Decidable (Clear xs rest)
  | [], _ => .isTrue trivial
  | _ :: xs, rest =>
    have := decClear xs rest
    inferInstanceAs (Decidable (_ ∧ _))

instance (xs : List Lexeme) (rest : List Char) : Decidable (Reads xs rest) := decReads xs rest

instance (xs : List Lexeme) (rest : List Char) : Decidable (Clear xs rest) := decClear xs rest

section
variable {x : Lexeme} {xs : List Lexeme} {behind rest body s t : List Char}

theorem strip_lexeme (h : x.Begins behind) (hclear : x.Clear behind) :
    strip (x.text ++ behind) = x.kept ++ strip behind := by
  unfold strip
  cases x with
  | quoted body =>
    have hread := quotedText_read h.1 h.2 behind
    rw [Lexeme.text, List.cons_append, List.append_assoc, List.singleton_append,
      Pattern.replaceAll_read hread]
    rfl
  | lineComment body =>
    obtain ⟨hline, hhead⟩ := h
    have hquoted : quotedText.replaceAll [] ('/' :: '/' :: (body ++ behind)) =
        '/' :: '/' :: (quotedText.replaceAll [] body ++ quotedText.replaceAll [] behind) := by
      rw [← quotedText_line body hhead]
      exact quotedText_skip (s := ['/', '/']) (by decide)
    have hread : lineComment.read
        ('/' :: '/' :: (quotedText.replaceAll [] body ++ quotedText.replaceAll [] behind)) =
          some ((), quotedText.replaceAll [] behind) := by
      refine lineComment_read (fun hmem => hline ?_) fun d hd => ?_
      · exact (Pattern.replaceAll_sublist readQuoted_suffix body).subset hmem
      · rw [head?_quotedText fun d hd => hhead d hd ▸ by decide] at hd
        exact hhead d hd
    rw [Lexeme.text, List.cons_append, List.cons_append, hquoted, Pattern.replaceAll_read hread]
    rfl
  | blockComment body =>
    obtain ⟨hquote, hslashes, hhead⟩ := hclear
    have hq : '\"' ∉ (Lexeme.blockComment body).text := by simp [Lexeme.text, hquote]
    have hl : ¬['/', '/'] <:+: (Lexeme.blockComment body).text := by
      refine not_pair_append (s := ['/', '*']) (by decide) ?_ (by simp)
      exact not_pair_append hslashes (by decide) fun _ d hd => by cases hd; decide
    have hread := blockComment_read h (lineComment.replaceAll [] (quotedText.replaceAll [] behind))
    rw [quotedText_skip hq, lineComment_skip hl fun _ d hd => ?_]
    · rw [Lexeme.text, List.cons_append, List.cons_append, List.append_assoc]
      exact Pattern.replaceAll_read hread
    · rw [head?_quotedText fun d hd => (hhead d hd).1] at hd
      exact (hhead d hd).2
  | char c =>
    have hquoted : quotedText.replaceAll [] (c :: behind) =
        c :: quotedText.replaceAll [] behind := by
      rw [Pattern.replaceAll_cons]
      by_cases hc : c = '\"'
      · subst hc
        rw [quotedText_read_open (h.1 rfl)]
      · rw [quotedText_read_eq_none hc]
    have hlast : ∀ {d}, [c].getLast? = some d → c = d := by simp
    have hline : lineComment.replaceAll [] ([c] ++ quotedText.replaceAll [] behind) =
        [c] ++ lineComment.replaceAll [] (quotedText.replaceAll [] behind) := by
      refine lineComment_skip not_pair_singleton fun hslash d hd => ?_
      rw [head?_quotedText (hclear (hlast hslash))] at hd
      exact (h.2 (hlast hslash) d hd).1
    have hblock : blockComment.replaceAll []
        ([c] ++ lineComment.replaceAll [] (quotedText.replaceAll [] behind)) =
          [c] ++ blockComment.replaceAll []
            (lineComment.replaceAll [] (quotedText.replaceAll [] behind)) := by
      refine blockComment_skip not_pair_singleton fun hslash d hd => ?_
      have hhead := head?_quotedText (hclear (hlast hslash))
      rw [head?_lineComment fun d hd => (h.2 (hlast hslash) d (hhead ▸ hd)).1, hhead] at hd
      exact (h.2 (hlast hslash) d hd).2
    rw [Lexeme.text, List.singleton_append, hquoted, ← List.singleton_append, hline, hblock]
    rfl

theorem strip_lexemes (h : Reads xs rest) (hclear : Clear xs rest) :
    strip (textOf xs ++ rest) = keptOf xs ++ strip rest := by
  induction xs with
  | nil => rfl
  | cons x xs ih =>
    rw [textOf, List.flatMap_cons, List.append_assoc]
    refine (strip_lexeme h.1 hclear.1).trans ?_
    rw [keptOf, List.flatMap_cons, List.append_assoc]
    exact congrArg (x.kept ++ ·) (ih h.2 hclear.2)

-- ---------------------------------------------------------------------------
-- Another comment
-- ---------------------------------------------------------------------------

theorem Lexeme.Begins.insert (h : x.Begins (s ++ t)) (hs : s ≠ []) (hbody : '\"' ∉ body) :
    x.Begins (s ++ (body ++ t)) := by
  have hhead : (s ++ (body ++ t)).head? = (s ++ t).head? := by
    rw [List.head?_append_of_ne_nil _ hs, List.head?_append_of_ne_nil _ hs]
  cases x with
  | quoted _ => exact h
  | blockComment _ => exact h
  | lineComment _ => exact ⟨h.1, hhead ▸ h.2⟩
  | char c =>
    exact ⟨fun hc => not_mem_takeWhile_insert (h.1 hc) hbody, fun hc => hhead ▸ h.2 hc⟩

theorem Lexeme.Clear.insert (h : x.Clear (s ++ t)) (hs : s ≠ []) : x.Clear (s ++ (body ++ t)) := by
  have hhead : (s ++ (body ++ t)).head? = (s ++ t).head? := by
    rw [List.head?_append_of_ne_nil _ hs, List.head?_append_of_ne_nil _ hs]
  cases x with
  | quoted _ => trivial
  | lineComment _ => trivial
  | blockComment _ => exact ⟨h.1, h.2.1, hhead ▸ h.2.2⟩
  | char c => exact fun hc => hhead ▸ h hc

/-- A reader comes past the same lexemes if a text without quotes is put in behind the character
that follows them. -/
theorem Reads.insert {b : Char} (h : Reads xs (b :: t)) (hbody : '\"' ∉ body) :
    Reads xs (b :: (body ++ t)) := by
  induction xs with
  | nil => trivial
  | cons x xs ih =>
    obtain ⟨hfirst, hrest⟩ := h
    rw [List.append_cons] at hfirst
    have hinsert := hfirst.insert (by simp) hbody
    rw [← List.append_cons] at hinsert
    exact ⟨hinsert, ih hrest⟩

theorem Clear.insert {b : Char} (h : Clear xs (b :: t)) : Clear xs (b :: (body ++ t)) := by
  induction xs with
  | nil => trivial
  | cons x xs ih =>
    obtain ⟨hfirst, hrest⟩ := h
    rw [List.append_cons] at hfirst
    have hinsert : x.Clear (textOf xs ++ [b] ++ (body ++ t)) := hfirst.insert (by simp)
    rw [← List.append_cons] at hinsert
    exact ⟨hinsert, ih hrest⟩

theorem strip_blank {b : Char} (hb : isBlank b = true) (t : List Char) :
    strip (b :: t) = b :: strip t := by
  have hquote : b ≠ '\"' := ne_of_class hb (by decide)
  have hslash : b ≠ '/' := ne_of_class hb (by decide)
  exact strip_lexeme (x := .char b)
    ⟨fun h => absurd h hquote, fun h => absurd h hslash⟩ fun h => absurd h hslash

theorem strip_comment {b c : Char} (hb : isBlank b = true) (hc : isBlank c = true)
    (h : Reads xs (b :: c :: rest)) (hclear : Clear xs (b :: c :: rest))
    (hclose : ¬['*', '/'] <:+: body) (hquote : '\"' ∉ body) (hslashes : ¬['/', '/'] <:+: body) :
    strip (textOf xs ++ b :: (comment body ++ c :: rest)) =
      strip (textOf xs ++ b :: c :: rest) := by
  have hcomment : strip (comment body ++ c :: rest) = strip (c :: rest) := by
    refine strip_lexeme (x := .blockComment body) hclose ⟨hquote, hslashes, ?_⟩
    rintro _ ⟨⟩
    exact ⟨ne_of_class hc (by decide), ne_of_class hc (by decide)⟩
  have hbody : '\"' ∉ comment body := by simp [comment, Lexeme.text, hquote]
  rw [strip_lexemes (h.insert hbody) hclear.insert, strip_lexemes h hclear, strip_blank hb,
    strip_blank hb, hcomment]

end

end DesignDeps.Skeleton
