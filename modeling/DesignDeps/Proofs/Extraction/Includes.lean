import DesignDeps.Dependencies
import DesignDeps.Proofs.Text.Matches

/-!
# Include directives

A `Directive` is what an include directive can be written with so that it is read: its path has only
word characters, slashes and dots. No directive begins inside of another one, so all that stand in a
text are found, whatever is around them (`mem_includes_iff`). A path with any other character, as in
`my-defs.svh`, makes a directive that is not read (`includes_literal`).
-/

namespace DesignDeps

open Text

namespace Dependencies

/-- `` `include "path" `` with blanks before the delimiters, which need not match. -/
structure Directive where
  gap : List Char
  spaced : gap ≠ []
  blank : ∀ c ∈ gap, isBlank c = true
  opener : Char
  opens : isIncludeOpen opener = true
  path : List Char
  nonempty : path ≠ []
  chars : ∀ c ∈ path, isIncludeChar c = true
  closer : Char
  closes : isIncludeClose closer = true

def directive (gap : List Char) (opener : Char) (path : List Char) (closer : Char) : List Char :=
  includeWord ++ (gap ++ opener :: (path ++ [closer]))

def Directive.text (d : Directive) : List Char :=
  directive d.gap d.opener d.path d.closer

/-- What is recorded of a path. -/
def baseName? (path : List Char) : Option String :=
  Path.fileName? ⟨String.ofList path⟩

-- ---------------------------------------------------------------------------
-- Reading
-- ---------------------------------------------------------------------------

section
variable {s t path rest : List Char} {c : Char}

theorem isBlank_of_isIncludeOpen (h : isIncludeOpen c = true) : isBlank c = false := by
  have hc : c = '\"' ∨ c = '<' := by simpa [isIncludeOpen] using h
  rcases hc with rfl | rfl <;> decide

theorem isIncludeChar_of_isIncludeClose (h : isIncludeClose c = true) :
    isIncludeChar c = false := by
  have hc : c = '\"' ∨ c = '>' := by simpa [isIncludeClose] using h
  rcases hc with rfl | rfl <;> decide

theorem readInclude_text (d : Directive) (t : List Char) :
    readInclude (d.text ++ t) = some (d.path, t) := by
  have hword : after? includeWord (d.text ++ t) =
      some (d.gap ++ d.opener :: (d.path ++ d.closer :: t)) :=
    after?_eq_some_iff.2 (by simp [Directive.text, directive])
  have hgap : run? isBlank (d.gap ++ d.opener :: (d.path ++ d.closer :: t)) =
      some (d.gap, d.opener :: (d.path ++ d.closer :: t)) :=
    run?_append d.spaced d.blank (by rintro _ ⟨⟩; exact isBlank_of_isIncludeOpen d.opens)
  have hpath : run? isIncludeChar (d.path ++ d.closer :: t) = some (d.path, d.closer :: t) :=
    run?_append d.nonempty d.chars
      (by rintro _ ⟨⟩; exact isIncludeChar_of_isIncludeClose d.closes)
  simp [readInclude, hword, hgap, hpath, d.opens, d.closes]

theorem exists_directive_of_readInclude (h : readInclude s = some (path, rest)) :
    ∃ d : Directive, d.path = path ∧ s = d.text ++ rest := by
  simp only [readInclude, Option.bind_eq_bind, Option.bind_eq_some_iff, Prod.exists] at h
  obtain ⟨s₁, hword, gap, s₂, hgap, h⟩ := h
  obtain rfl := after?_eq_some_iff.1 hword
  obtain ⟨rfl, hspaced, hblank, -⟩ := append_of_run? hgap
  cases s₂ with
  | nil => cases h
  | cons opener s₃ =>
    dsimp only at h
    split at h
    · next hopens =>
      simp only [Option.bind_eq_some_iff, Prod.exists] at h
      obtain ⟨path', s₄, hpath, h⟩ := h
      obtain ⟨rfl, hne, hchars, -⟩ := append_of_run? hpath
      cases s₄ with
      | nil => cases h
      | cons closer s₅ =>
        dsimp only at h
        split at h
        · next hcloses =>
          cases h
          exact ⟨⟨gap, hspaced, hblank, opener, hopens, path, hne, hchars, closer, hcloses⟩, rfl,
            by simp [Directive.text, directive]⟩
        · cases h
    · cases h

end

-- ---------------------------------------------------------------------------
-- Searching
-- ---------------------------------------------------------------------------

section
variable {s path : List Char}

theorem consumes_includeUse : includeUse.Consumes := fun h => by
  obtain ⟨d, -, rfl⟩ := exists_directive_of_readInclude h
  exact List.suffix_append _ _

theorem Directive.text_eq (d : Directive) : ∃ behind, d.text = '`' :: behind ∧ '`' ∉ behind := by
  refine ⟨"include".toList ++ (d.gap ++ d.opener :: (d.path ++ [d.closer])), rfl, ?_⟩
  have hgap : '`' ∉ d.gap := fun hmem => absurd (d.blank _ hmem) (by decide)
  have hopener : '`' ≠ d.opener := by
    intro heq
    exact absurd (heq ▸ d.opens) (by decide)
  have hpath : '`' ∉ d.path := fun hmem => absurd (d.chars _ hmem) (by decide)
  have hcloser : '`' ≠ d.closer := by
    intro heq
    exact absurd (heq ▸ d.closes) (by decide)
  simp [hgap, hopener, hpath, hcloser]

theorem readInclude_of_ne {c : Char} {t : List Char} (h : c ≠ '`') : readInclude (c :: t) = none := by
  refine Option.eq_none_iff_forall_ne_some.2 fun _ hread => ?_
  obtain ⟨d, -, hd⟩ := exists_directive_of_readInclude hread
  obtain ⟨behind, htext, -⟩ := d.text_eq
  rw [htext] at hd
  exact h (List.cons.inj hd).1

theorem mem_findAll_includeUse :
    path ∈ includeUse.findAll s ↔ ∃ front behind, ∃ d : Directive,
      s = front ++ (d.text ++ behind) ∧ d.path = path := by
  constructor
  · intro h
    obtain ⟨u, rest, htries, hread⟩ := Pattern.mem_findAll_iff.1 h
    obtain ⟨front, rfl⟩ := htries.suffix consumes_includeUse
    obtain ⟨d, hpath, rfl⟩ := exists_directive_of_readInclude hread
    exact ⟨front, rest, d, rfl, hpath⟩
  · rintro ⟨front, behind, d, rfl, rfl⟩
    rcases Pattern.tries_or_covered consumes_includeUse
      (List.suffix_append front (d.text ++ behind)) with htries | hcovered
    · exact Pattern.mem_findAll_iff.2 ⟨_, _, htries, readInclude_text d behind⟩
    · -- It would begin behind the first character of a directive.
      obtain ⟨v, a, rest, -, hread, ⟨⟨x, hx⟩, hne⟩, ⟨y, hy⟩, hend⟩ := hcovered
      obtain ⟨d', -, rfl⟩ := exists_directive_of_readInclude hread
      obtain ⟨tail, htail, hnot⟩ := d'.text_eq
      obtain ⟨first, hfirst, -⟩ := d.text_eq
      have hsplit : x ++ y = d'.text := by
        rw [← hy, ← List.append_assoc] at hx
        exact List.append_cancel_right hx
      have hxne : x ≠ [] := fun hnil => hne (by simpa [hnil] using hx)
      have hyne : y ≠ [] := fun hnil => hend (by simpa [hnil] using hy)
      obtain ⟨c, x, rfl⟩ := List.exists_cons_of_ne_nil hxne
      obtain ⟨e, y, rfl⟩ := List.exists_cons_of_ne_nil hyne
      rw [hfirst] at hy
      obtain ⟨rfl, -⟩ := List.cons.inj hy
      rw [htail] at hsplit
      obtain ⟨-, rfl⟩ := List.cons.inj hsplit
      simp at hnot

theorem mem_includes_iff {module text n : String} :
    n ∈ (ofText module text).includes ↔
      (∃ front behind, ∃ d : Directive, text.toList = front ++ (d.text ++ behind) ∧
        baseName? d.path = some n) ∧ n ≠ module := by
  simp only [ofText, includesOf, NameSet.mem_ofList, List.mem_filter, List.mem_filterMap,
    mem_findAll_includeUse, bne_iff_ne]
  refine and_congr_left fun _ => ⟨?_, ?_⟩
  · rintro ⟨_, ⟨front, behind, d, hs, rfl⟩, hname⟩
    exact ⟨front, behind, d, hs, hname⟩
  · rintro ⟨front, behind, d, hs, hname⟩
    exact ⟨d.path, ⟨front, behind, d, hs, rfl⟩, hname⟩

end

-- ---------------------------------------------------------------------------
-- Directives with any path
-- ---------------------------------------------------------------------------

section
variable {a b behind gap path : List Char} {opener closer : Char}

theorem path_eq_of_append {d : Directive} (hblank : ∀ c ∈ gap, isBlank c = true)
    (hopener : isBlank opener = false) (hpath : ∀ c ∈ path, isIncludeClose c = false)
    (hcloser : isIncludeChar closer = false)
    (h : directive gap opener path closer ++ b = d.text ++ behind) : path = d.path := by
  have hgaps : gap ++ opener :: (path ++ closer :: b) =
      d.gap ++ d.opener :: (d.path ++ d.closer :: behind) := by
    simpa [Directive.text, directive] using h
  have hpaths := congrArg (List.dropWhile isBlank) hgaps
  rw [dropWhile_run hblank (by rintro _ ⟨⟩; exact hopener),
    dropWhile_run d.blank (by rintro _ ⟨⟩; exact isBlank_of_isIncludeOpen d.opens)] at hpaths
  obtain ⟨-, hpaths⟩ := List.cons.inj hpaths
  rcases List.append_eq_append_iff.1 hpaths with ⟨z, hz, hlater⟩ | ⟨z, hz, hlater⟩
  · cases z with
    | nil => simpa using hz.symm
    | cons c z =>
      obtain ⟨rfl, -⟩ := List.cons.inj hlater
      simp [d.chars closer (by simp [hz])] at hcloser
  · cases z with
    | nil => simpa using hz
    | cons c z =>
      obtain ⟨rfl, -⟩ := List.cons.inj hlater
      have hclose := hpath d.closer (by simp [hz])
      simp [d.closes] at hclose

variable {module n : String}

/-- The base name of a directive is found if its path has nothing but word characters, slashes and
dots, whatever stands around it. Otherwise it is found only if another directive has it. -/
theorem includes_literal (hspaced : gap ≠ []) (hblank : ∀ c ∈ gap, isBlank c = true)
    (hne : path ≠ []) (hfree : ∀ c ∈ path, c ∉ ['\"', '<', '>', '\n', '`'])
    (hdelims : opener = '\"' ∧ closer = '\"' ∨ opener = '<' ∧ closer = '>')
    (hname : baseName? path = some n) (hmodule : n ≠ module) :
    n ∈ (ofText module (String.ofList (a ++ (directive gap opener path closer ++ b)))).includes ↔
      (∀ c ∈ path, isIncludeChar c = true) ∨
        ∃ front behind, ∃ d : Directive,
          a ++ (directive gap opener path closer ++ b) = front ++ (d.text ++ behind) ∧
            front ≠ a ∧ baseName? d.path = some n := by
  have hopens : isIncludeOpen opener = true := by
    rcases hdelims with ⟨rfl, -⟩ | ⟨rfl, -⟩ <;> decide
  have hcloses : isIncludeClose closer = true := by
    rcases hdelims with ⟨-, rfl⟩ | ⟨-, rfl⟩ <;> decide
  have hpath : ∀ c ∈ path, isIncludeClose c = false := by
    intro c hc
    have hmarks := hfree c hc
    simp only [List.mem_cons, not_or] at hmarks
    simp [isIncludeClose, hmarks]
  rw [mem_includes_iff, String.toList_ofList, and_iff_left hmodule]
  constructor
  · rintro ⟨front, behind, d, htext, hbase⟩
    by_cases hfront : front = a
    · subst hfront
      have heq := path_eq_of_append hblank (isBlank_of_isIncludeOpen hopens) hpath
        (isIncludeChar_of_isIncludeClose hcloses) (List.append_cancel_left htext)
      exact .inl (heq ▸ d.chars)
    · exact .inr ⟨front, behind, d, htext, hfront, hbase⟩
  · rintro (hchars | ⟨front, behind, d, htext, -, hbase⟩)
    · exact ⟨a, b, ⟨gap, hspaced, hblank, opener, hopens, path, hne, hchars, closer, hcloses⟩, rfl,
        hname⟩
    · exact ⟨front, behind, d, htext, hbase⟩

def upperHeader : List Char := "../inc/defs.svh".toList

theorem includes_literal_upperHeader :
    (∀ c ∈ "\t ".toList, isBlank c = true) ∧ baseName? upperHeader = some "defs.svh" ∧
      "defs.svh" ∈ (ofText "top" (String.ofList ("// `include <".toList ++
        (directive "\t ".toList '<' upperHeader '>' ++ " x".toList)))).includes := by
  have hblank : ∀ c ∈ "\t ".toList, isBlank c = true := List.all_eq_true.1 (by decide)
  have hname : baseName? upperHeader = some "defs.svh" := by decide +kernel
  have hchars : ∀ c ∈ upperHeader, isIncludeChar c = true := List.all_eq_true.1 (by decide +kernel)
  have hfree : ∀ c ∈ upperHeader, c ∉ ['\"', '<', '>', '\n', '`'] := by
    unfold upperHeader
    simp
  exact ⟨hblank, hname, (includes_literal (by decide) hblank (List.cons_ne_nil _ _) hfree
    (.inr ⟨rfl, rfl⟩) hname (by decide)).2 (.inl hchars)⟩

/-- A hyphen in the path makes a directive that is not read. -/
theorem hyphen_unread :
    (∀ c ∈ "my-defs.svh".toList, c ∉ ['\"', '<', '>', '\n', '`']) ∧
      baseName? "my-defs.svh".toList = some "my-defs.svh" ∧ "my-defs.svh" ≠ "top" ∧
      "my-defs.svh" ∉ (ofText "top" (String.ofList
        (directive " ".toList '\"' "my-defs.svh".toList '\"'))).includes := by
  have htext : directive " ".toList '\"' "my-defs.svh".toList '\"' =
      '`' :: ("include \"my-defs.svh\"".toList ++ []) := by decide +kernel
  have hread : includeUse.read ('`' :: ("include \"my-defs.svh\"".toList ++ [])) = none := by
    decide +kernel
  have hbehind : includeUse.Skips [] ("include \"my-defs.svh\"".toList) :=
    Pattern.skips_of_forall fun c hc _ =>
      readInclude_of_ne (by rintro rfl; exact absurd hc (by decide +kernel))
  have hfound : includeUse.findAll
      (directive " ".toList '\"' "my-defs.svh".toList '\"') = [] := by
    rw [htext, Pattern.findAll_cons, hread]
    exact (Pattern.findAll_skip hbehind).trans (Pattern.findAll_nil _)
  refine ⟨by simp, by decide +kernel, by decide, ?_⟩
  simp only [ofText, includesOf, String.toList_ofList, hfound]
  simp

end

end Dependencies

end DesignDeps
