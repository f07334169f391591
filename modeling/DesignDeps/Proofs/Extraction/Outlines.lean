import DesignDeps.Dependencies
import DesignDeps.Proofs.Text.Matches

/-!
# Instantiations in a skeleton

An `Outline` is what the skeleton of a text has of an instantiation. Outlines are read, and nothing
else is (`readInstance_text`, `exists_outline_of_readInstance`). Matches do not overlap, yet no
outline is missed: behind its first word nothing can be read before it ends (`skips_behind`). So the
modules found in a text are those of the outlines that stand in its skeleton (`mem_instances_iff`).
-/

namespace DesignDeps

open Text

-- ---------------------------------------------------------------------------
-- Parts
-- ---------------------------------------------------------------------------

structure Blanks where
  text : List Char
  blank : ∀ c ∈ text, isBlank c = true

structure Word where
  text : List Char
  nonempty : text ≠ []
  word : ∀ c ∈ text, isWord c = true

/-- The blanks that a text begins with. -/
def Blanks.front (s : List Char) : Blanks :=
  ⟨s.takeWhile isBlank, fun _ hc => List.mem_takeWhile_imp hc⟩

theorem Blanks.front_append (s : List Char) : (front s).text ++ s.dropWhile isBlank = s :=
  List.takeWhile_append_dropWhile

theorem Blanks.not_word (b : Blanks) : ∀ c ∈ b.text, isWord c = false :=
  fun c hc => isWord_of_isBlank (b.blank c hc)

theorem Word.head_append {c : Char} (w : Word) (s : List Char) (h : c ∈ (w.text ++ s).head?) :
    isWord c = true := by
  rw [List.head?_append_of_ne_nil _ w.nonempty] at h
  exact w.word c (List.mem_of_mem_head? h)

theorem Word.run?_append (w : Word) {s : List Char} (h : ∀ c ∈ s.head?, isWord c = false) :
    run? isWord (w.text ++ s) = some (w.text, s) :=
  Text.run?_append w.nonempty w.word h

structure EmptyParams where
  gap : Blanks
  behind : Blanks

/-- What a skeleton has of an instantiation: `module #() name ();` -/
structure Outline where
  module : Word
  gap : Blanks
  spaced : gap.text ≠ []
  params : Option EmptyParams
  name : Word
  behind : Blanks
  close : Blanks

def EmptyParams.text (p : EmptyParams) : List Char :=
  '#' :: (p.gap.text ++ '(' :: ')' :: p.behind.text)

namespace Outline

def spacing (o : Outline) : List Char :=
  o.gap.text ++ o.params.elim [] EmptyParams.text

def ports (o : Outline) : List Char :=
  o.behind.text ++ '(' :: ')' :: (o.close.text ++ [';'])

def text (o : Outline) : List Char :=
  o.module.text ++ (o.spacing ++ (o.name.text ++ o.ports))

end Outline

-- ---------------------------------------------------------------------------
-- Reading
-- ---------------------------------------------------------------------------

namespace Dependencies

variable {b g s t w m rest : List Char}

theorem skipParams_of_head? (h : ∀ c ∈ s.head?, c ≠ '#') : skipParams s = s := by
  unfold skipParams
  split
  · exact absurd rfl (h '#' rfl)
  · rfl

theorem skipParams_group (hg : ∀ c ∈ g, isBlank c = true) (hb : ∀ c ∈ b, isBlank c = true)
    (hs : ∀ c ∈ s.head?, isBlank c = false) :
    skipParams ('#' :: (g ++ '(' :: ')' :: (b ++ s))) = s := by
  have hgap : (g ++ '(' :: ')' :: (b ++ s)).dropWhile isBlank = '(' :: ')' :: (b ++ s) :=
    dropWhile_run hg (by rintro _ ⟨⟩; decide)
  have hgroup : afterGroup? ('(' :: ')' :: (b ++ s)) = some (b ++ s) := rfl
  unfold skipParams
  simp only [hgap, hgroup, dropWhile_run hb hs]

theorem exists_params (s : List Char) :
    ∃ params : Option EmptyParams, s = params.elim [] EmptyParams.text ++ skipParams s := by
  unfold skipParams
  split
  · next s =>
    split
    · next rest hgroup =>
      refine ⟨some ⟨.front s, .front rest⟩, ?_⟩
      have hs : s.dropWhile isBlank = '(' :: ')' :: rest := after?_eq_some_iff.1 hgroup
      simp only [Option.elim, EmptyParams.text, List.cons_append, List.append_assoc,
        Blanks.front_append, ← hs]
    · exact ⟨none, rfl⟩
  · exact ⟨none, rfl⟩

theorem readInstance_of_runs {s s₁ s₂ s₃ s₄ t module gap name : List Char}
    (hmodule : run? isWord s = some (module, s₁)) (hgap : run? isBlank s₁ = some (gap, s₂))
    (hname : run? isWord (skipParams s₂) = some (name, s₃))
    (hports : s₃.dropWhile isBlank = '(' :: ')' :: s₄) (hclose : s₄.dropWhile isBlank = ';' :: t) :
    readInstance s = some (module, t) := by
  simp [readInstance, hmodule, hgap, hname, hports, hclose, afterGroup?, after?]

theorem runs_of_readInstance (h : readInstance s = some (m, rest)) :
    ∃ s₁ gap s₂ name s₃ s₄, run? isWord s = some (m, s₁) ∧ run? isBlank s₁ = some (gap, s₂) ∧
      run? isWord (skipParams s₂) = some (name, s₃) ∧ s₃.dropWhile isBlank = '(' :: ')' :: s₄ ∧
      s₄.dropWhile isBlank = ';' :: rest := by
  simp only [readInstance, Option.bind_eq_bind, Option.bind_eq_some_iff, Prod.exists,
    Option.pure_def, Option.some.injEq, Prod.mk.injEq] at h
  obtain ⟨_, s₁, h₁, gap, s₂, h₂, name, s₃, h₃, s₄, h₄, _, h₅, rfl, rfl⟩ := h
  exact ⟨s₁, gap, s₂, name, s₃, s₄, h₁, h₂, h₃, after?_eq_some_iff.1 h₄, after?_eq_some_iff.1 h₅⟩

theorem skipParams_params (params : Option EmptyParams) (name : Word) (s : List Char) :
    skipParams (params.elim [] EmptyParams.text ++ (name.text ++ s)) = name.text ++ s := by
  cases params with
  | none => exact skipParams_of_head? fun c hc => ne_of_class (name.head_append s hc) (by decide)
  | some p =>
    have hskip := skipParams_group p.gap.blank p.behind.blank fun c hc =>
      isBlank_of_isWord (name.head_append s hc)
    simpa [EmptyParams.text] using hskip

theorem isBlank_of_head?_params (params : Option EmptyParams) (name : Word) (s : List Char) :
    ∀ c ∈ (params.elim [] EmptyParams.text ++ (name.text ++ s)).head?, isBlank c = false := by
  cases params with
  | none => exact fun c hc => isBlank_of_isWord (name.head_append s hc)
  | some p =>
    rintro _ ⟨⟩
    decide

theorem readInstance_text (o : Outline) (t : List Char) :
    readInstance (o.text ++ t) = some (o.module.text, t) := by
  have hsplit : o.ports ++ t = o.behind.text ++ '(' :: ')' :: (o.close.text ++ ';' :: t) := by
    simp [Outline.ports]
  have hports : (o.ports ++ t).dropWhile isBlank = '(' :: ')' :: (o.close.text ++ ';' :: t) :=
    hsplit ▸ dropWhile_run o.behind.blank (by rintro _ ⟨⟩; decide)
  have hname : run? isWord (skipParams (o.params.elim [] EmptyParams.text ++
      (o.name.text ++ (o.ports ++ t)))) = some (o.name.text, o.ports ++ t) := by
    rw [skipParams_params]
    refine o.name.run?_append ?_
    rw [hsplit]
    exact head?_append_of_forall o.behind.not_word (by rintro _ ⟨⟩; decide)
  have hgap := run?_append o.spaced o.gap.blank
    (isBlank_of_head?_params o.params o.name (o.ports ++ t))
  have hmodule := o.module.run?_append (s := o.gap.text ++ (o.params.elim [] EmptyParams.text ++
    (o.name.text ++ (o.ports ++ t)))) fun c hc => by
      rw [List.head?_append_of_ne_nil _ o.spaced] at hc
      exact o.gap.not_word c (List.mem_of_mem_head? hc)
  have hread := readInstance_of_runs hmodule hgap hname hports
    (dropWhile_run o.close.blank (by rintro _ ⟨⟩; decide))
  simpa [Outline.text, Outline.spacing] using hread

theorem exists_outline_of_readInstance (h : readInstance s = some (m, rest)) :
    ∃ o : Outline, o.module.text = m ∧ s = o.text ++ rest := by
  obtain ⟨s₁, gap, s₂, name, s₃, s₄, hmodule, hgap, hname, hports, hclose⟩ :=
    runs_of_readInstance h
  obtain ⟨rfl, hm, hword, -⟩ := append_of_run? hmodule
  obtain ⟨rfl, hg, hblank, -⟩ := append_of_run? hgap
  obtain ⟨params, hparams⟩ := exists_params s₂
  obtain ⟨hskip, hn, hnword, -⟩ := append_of_run? hname
  have hthird : s₃ = (Blanks.front s₃).text ++ '(' :: ')' :: s₄ := by
    rw [← hports, Blanks.front_append]
  have hfourth : s₄ = (Blanks.front s₄).text ++ ';' :: rest := by
    rw [← hclose, Blanks.front_append]
  refine ⟨⟨⟨m, hm, hword⟩, ⟨gap, hblank⟩, hg, params, ⟨name, hn, hnword⟩, .front s₃, .front s₄⟩,
    rfl, ?_⟩
  rw [hparams, hskip]
  conv => lhs; rw [hthird]
  conv => lhs; rw [hfourth]
  simp [Outline.text, Outline.spacing, Outline.ports]

-- ---------------------------------------------------------------------------
-- Searching
-- ---------------------------------------------------------------------------

theorem readInstance_of_not_word {c : Char} (h : isWord c = false) (s : List Char) :
    readInstance (c :: s) = none := by
  simp [readInstance, run?_cons_of_not h]

theorem readInstance_ports (hw : ∀ c ∈ w, isWord c = true) (hb : ∀ c ∈ b, isBlank c = true)
    (t : List Char) : readInstance (w ++ (b ++ '(' :: t)) = none := by
  cases hread : readInstance (w ++ (b ++ '(' :: t)) with
  | none => rfl
  | some r =>
    obtain ⟨s₁, gap, s₂, name, s₃, s₄, hmodule, hgap, hname, -, -⟩ := runs_of_readInstance hread
    have hbehind : s₁ = b ++ '(' :: t := by
      rw [(run?_eq_some_iff.1 hmodule).2.2]
      exact dropWhile_run hw (head?_append_of_forall (fun c hc => isWord_of_isBlank (hb c hc))
        (by rintro _ ⟨⟩; decide))
    have hparen : s₂ = '(' :: t := by
      rw [(run?_eq_some_iff.1 hgap).2.2, hbehind]
      exact dropWhile_run hb (by rintro _ ⟨⟩; decide)
    rw [hparen, skipParams_of_head? (by rintro _ ⟨⟩; decide), run?_cons_of_not (by decide)] at hname
    cases hname

theorem skips_ports (o : Outline) (t : List Char) : instanceUse.Skips t o.ports := by
  refine Pattern.skips_of_forall fun c hc => readInstance_of_not_word ?_
  simp only [Outline.ports, List.mem_append, List.mem_cons, List.not_mem_nil, or_false] at hc
  rcases hc with hc | rfl | rfl | hc | rfl
  · exact o.behind.not_word c hc
  · decide
  · decide
  · exact o.close.not_word c hc
  · decide

theorem skips_name (o : Outline) (t : List Char) :
    instanceUse.Skips (o.ports ++ t) o.name.text := by
  have hskips : ∀ w : List Char, (∀ c ∈ w, isWord c = true) →
      instanceUse.Skips (o.ports ++ t) w := by
    intro w hw
    induction w with
    | nil => trivial
    | cons c w ih =>
      have hread : instanceUse.read (c :: w ++ (o.behind.text ++ '(' :: ')' ::
          (o.close.text ++ ';' :: t))) = none := readInstance_ports hw o.behind.blank _
      exact ⟨by simpa [Outline.ports] using hread,
        ih fun d hd => hw d (List.mem_cons_of_mem _ hd)⟩
  exact hskips o.name.text o.name.word

theorem skips_spacing (o : Outline) (t : List Char) : instanceUse.Skips t o.spacing := by
  refine Pattern.skips_of_forall fun c hc => readInstance_of_not_word ?_
  rcases List.mem_append.1 hc with hc | hc
  · exact o.gap.not_word c hc
  · cases hparams : o.params with
    | none => simp [hparams] at hc
    | some p =>
      simp only [hparams, Option.elim, EmptyParams.text, List.mem_cons, List.mem_append] at hc
      rcases hc with rfl | hc | rfl | rfl | hc
      · decide
      · exact p.gap.not_word c hc
      · decide
      · decide
      · exact p.behind.not_word c hc

theorem skips_behind (o : Outline) (t : List Char) :
    instanceUse.Skips t (o.spacing ++ (o.name.text ++ o.ports)) :=
  (skips_spacing o _).append ((skips_name o t).append (skips_ports o t))

theorem ledByWord_instanceUse : instanceUse.LedByWord where
  word h := by
    obtain ⟨s₁, _, _, _, _, _, hmodule, -⟩ := runs_of_readInstance h
    exact ⟨s₁, append_of_run? hmodule⟩
  later {c d s} hc _ hnone := by
    cases hread : instanceUse.read (d :: s) with
    | none => rfl
    | some r =>
      obtain ⟨o, -, ho⟩ := exists_outline_of_readInstance hread
      have hlonger := readInstance_text { o with
        module := ⟨c :: o.module.text, by simp, by simpa using ⟨hc, o.module.word⟩⟩ } r.2
      rw [Outline.text, List.append_assoc, List.cons_append, ← List.append_assoc] at hlonger
      rw [ho] at hnone
      exact absurd (hnone.symm.trans hlonger) (by simp)
  ends h := by
    obtain ⟨o, -, rfl⟩ := exists_outline_of_readInstance h
    refine ⟨o.text, rfl, fun c hc hword => ?_⟩
    obtain rfl : ';' = c := by
      simpa [Outline.text, Outline.ports, List.getLast?_append, List.getLast?_cons] using hc
    cases hword

theorem mem_findAll_instanceUse :
    m ∈ instanceUse.findAll s ↔ ∃ front behind, ∃ o : Outline,
      s = front ++ (o.text ++ behind) ∧ (∀ c ∈ front.getLast?, isWord c = false) ∧
        o.module.text = m := by
  constructor
  · intro h
    obtain ⟨u, rest, htries, hread⟩ := Pattern.mem_findAll_iff.1 h
    obtain ⟨front, rfl⟩ := htries.suffix ledByWord_instanceUse.consumes
    obtain ⟨o, ho, rfl⟩ := exists_outline_of_readInstance hread
    exact ⟨front, rest, o, rfl, htries.begins_word ledByWord_instanceUse hread, ho⟩
  · rintro ⟨front, behind, o, rfl, hfront, rfl⟩
    have hread : instanceUse.read (o.text ++ behind) = some (o.module.text, behind) :=
      readInstance_text o behind
    rcases Pattern.tries_or_covered ledByWord_instanceUse.consumes
      (List.suffix_append front (o.text ++ behind)) with htries | hcovered
    · exact Pattern.mem_findAll_iff.2 ⟨_, _, htries, hread⟩
    · -- It would begin in the first word of the match, or behind it.
      obtain ⟨v, a, rest, hv, hcover, ⟨⟨x, hx⟩, hne⟩, ⟨y, hy⟩, hend⟩ := hcovered
      obtain ⟨o', -, rfl⟩ := exists_outline_of_readInstance hcover
      obtain ⟨front', hfront'⟩ := hv.suffix ledByWord_instanceUse.consumes
      have hsplit : x ++ y = o'.module.text ++ (o'.spacing ++ (o'.name.text ++ o'.ports)) := by
        rw [← hy, ← List.append_assoc] at hx
        exact List.append_cancel_right hx
      have hxne : x ≠ [] := fun h => hne (by simpa [h] using hx)
      rcases List.append_eq_append_iff.1 hsplit with ⟨z, hword, -⟩ | ⟨z, -, hlater⟩
      · obtain ⟨c, hc⟩ : ∃ c, c ∈ x.getLast? := ⟨_, List.getLast?_eq_some_getLast hxne⟩
        have hlast : c ∈ front.getLast? := by
          rw [← hx, ← List.append_assoc] at hfront'
          rw [← List.append_cancel_right hfront', List.getLast?_append_of_ne_nil _ hxne]
          exact hc
        have hmem : c ∈ o'.module.text := by
          rw [hword]
          exact List.mem_append_left _ (List.mem_of_getLast? hc)
        exact absurd (hfront c hlast) (by simp [o'.module.word c hmem])
      · have hyne : y ≠ [] := fun h => hend (by simpa [h] using hy)
        have hnone := (skips_behind o' rest).read_eq_none (hlater ▸ List.suffix_append z y) hyne
        rw [hy, hread] at hnone
        cases hnone

/-- The modules found are those of the outlines in the skeleton that begin a word there, without
keywords and the module itself. None is hidden by what is found before it. -/
theorem mem_instances_iff {module text n : String} :
    n ∈ (ofText module text).instances ↔
      (∃ front behind, ∃ o : Outline,
        Skeleton.ofText text.toList = front ++ (o.text ++ behind) ∧
          (∀ c ∈ front.getLast?, isWord c = false) ∧ String.ofList o.module.text = n) ∧
        isKeyword n = false ∧ n ≠ module := by
  simp only [ofText, instancesOf, NameSet.mem_ofList, List.mem_filter, List.mem_map,
    mem_findAll_instanceUse, Bool.and_eq_true, Bool.not_eq_true', bne_iff_ne]
  refine and_congr_left fun _ => ⟨?_, ?_⟩
  · rintro ⟨_, ⟨front, behind, o, hs, hfront, rfl⟩, rfl⟩
    exact ⟨front, behind, o, hs, hfront, rfl⟩
  · rintro ⟨front, behind, o, hs, hfront, rfl⟩
    exact ⟨_, ⟨front, behind, o, hs, hfront, rfl⟩, rfl⟩

end Dependencies

end DesignDeps
