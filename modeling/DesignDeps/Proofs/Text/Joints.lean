import DesignDeps.Proofs.Text.Matches

/-!
# Where a text is joined

Taking matches out of a text makes neighbours of what stood on both sides of them. Two neighbours in
the result are neighbours in the text, or they were joined (`pair_of_replaceAll`). So a pattern that
is always found where it begins with two given characters leaves these two nowhere, unless it joins
them itself (`not_pair_replaceAll`).
-/

namespace DesignDeps.Text.Pattern

variable {α : Type} {p : Pattern α} {c d : Char} {s : List Char}

/-- Without the matches in the text `d` comes directly behind `c`, and with them it does not. -/
inductive Joins (p : Pattern α) (c d : Char) : List Char → Prop
  | here {a : α} {s rest : List Char} : p.read (c :: s) = none → p.read s = some (a, rest) →
      (p.replaceAll [] rest).head? = some d → Joins p c d (c :: s)
  | past {e : Char} {s : List Char} : p.read (e :: s) = none → Joins p c d s → Joins p c d (e :: s)
  | behind {a : α} {s rest : List Char} :
      p.read s = some (a, rest) → Joins p c d rest → Joins p c d s

theorem joins_of_head? (hnone : p.read (c :: s) = none)
    (h : (p.replaceAll [] s).head? = some d) : s.head? = some d ∨ p.Joins c d (c :: s) := by
  cases s with
  | nil => simp [replaceAll_nil] at h
  | cons e s =>
    cases hread : p.read (e :: s) with
    | none =>
      rw [replaceAll_cons, hread] at h
      exact .inl h
    | some r =>
      rw [replaceAll_read hread, List.nil_append] at h
      exact .inr (.here hnone hread h)

theorem pair_of_replaceAll (hp : p.Consumes) (h : [c, d] <:+: p.replaceAll [] s) :
    [c, d] <:+: s ∨ p.Joins c d s := by
  fun_induction replaceAll p [] s with
  | case1 => exact .inl h
  | case2 e s a rest hread ih =>
    exact (ih h).imp (fun hrest => hrest.trans (hp hread).isInfix) (.behind hread)
  | case3 e s hread ih =>
    rcases List.infix_cons_iff.1 h with hfront | hlater
    · obtain ⟨rfl, hnext⟩ := List.cons_prefix_cons.1 hfront
      refine (joins_of_head? hread (List.singleton_prefix_iff_head?_eq_some.1 hnext)).imp_left ?_
      intro hhead
      obtain ⟨t, rfl⟩ := List.head?_eq_some_iff.1 hhead
      exact ⟨[], t, rfl⟩
    · exact (ih hlater).imp (fun hs => hs.trans (List.suffix_cons e s).isInfix) (.past hread)

theorem not_pair_replaceAll (hread : ∀ s, p.read (c :: d :: s) ≠ none) (h : ¬p.Joins c d s) :
    ¬[c, d] <:+: p.replaceAll [] s := by
  fun_induction replaceAll p [] s with
  | case1 => simp
  | case2 e s a rest hsome ih => exact ih fun hrest => h (.behind hsome hrest)
  | case3 e s hnone ih =>
    rw [List.infix_cons_iff, not_or]
    refine ⟨fun hfront => ?_, ih fun hs => h (.past hnone hs)⟩
    obtain ⟨rfl, hnext⟩ := List.cons_prefix_cons.1 hfront
    have hhead := List.singleton_prefix_iff_head?_eq_some.1 hnext
    rcases joins_of_head? hnone hhead with hs | hjoins
    · obtain ⟨t, rfl⟩ := List.head?_eq_some_iff.1 hs
      exact hread t hnone
    · exact h hjoins

end DesignDeps.Text.Pattern
