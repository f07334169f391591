/-!
# Parts of a text

All the finitely many texts that stand somewhere in a given one without gaps.
-/

namespace DesignDeps.Text

def beginnings : List Char → List (List Char)
  | [] => [[]]
  | c :: cs => [] :: (beginnings cs).map (c :: ·)

theorem mem_beginnings {t s : List Char} : t ∈ beginnings s ↔ t <+: s := by
  induction s generalizing t with
  | nil => simp [beginnings]
  | cons c cs ih =>
    cases t with
    | nil => simp [beginnings]
    | cons d ds =>
      simp only [beginnings, List.mem_cons, reduceCtorEq, false_or, List.mem_map, ih,
        List.cons_prefix_cons]
      constructor
      · rintro ⟨t, ht, he⟩
        cases he
        exact ⟨rfl, ht⟩
      · rintro ⟨rfl, ht⟩
        exact ⟨ds, ht, rfl⟩

def parts : List Char → List (List Char)
  | [] => [[]]
  | c :: cs => beginnings (c :: cs) ++ parts cs

theorem mem_parts {t s : List Char} : t ∈ parts s ↔ t <:+: s := by
  induction s with
  | nil => simp [parts]
  | cons c cs ih => simp [parts, ih, mem_beginnings, List.infix_cons_iff]

end DesignDeps.Text
