import DesignDeps.Text.Split

/-!
# Pieces between separators

A text is cut at a separator wherever one stands, so pieces of a text put together from two parts
around a separator are the pieces of the parts.
-/

namespace DesignDeps.Text

variable {sep : Char} {s t : List Char}

theorem pieces_ne_nil (sep : Char) (s : List Char) : pieces sep s ≠ [] := by
  cases s with
  | nil => simp [pieces]
  | cons c s =>
    unfold pieces
    split
    · simp
    · split <;> simp

theorem pieces_cons_of_ne {c : Char} (h : c ≠ sep) :
    ∃ p ps, pieces sep s = p :: ps ∧ pieces sep (c :: s) = (c :: p) :: ps := by
  cases hs : pieces sep s with
  | nil => exact absurd hs (pieces_ne_nil sep s)
  | cons p ps => exact ⟨p, ps, rfl, by simp [pieces, h, hs]⟩

@[simp] theorem pieces_cons_self : pieces sep (sep :: s) = [] :: pieces sep s := by
  simp [pieces]

theorem pieces_of_not_mem (h : sep ∉ s) : pieces sep s = [s] := by
  induction s with
  | nil => rfl
  | cons c s ih =>
    obtain ⟨hc, hs⟩ : sep ≠ c ∧ sep ∉ s := by simpa using h
    obtain ⟨p, ps, heq, hcons⟩ := pieces_cons_of_ne (s := s) (Ne.symm hc)
    rw [ih hs] at heq
    cases heq
    exact hcons

theorem pieces_append (s t : List Char) :
    pieces sep (s ++ sep :: t) = pieces sep s ++ pieces sep t := by
  induction s with
  | nil => simp [pieces]
  | cons c s ih =>
    by_cases hc : c = sep
    · subst hc
      simp [ih]
    · obtain ⟨p, ps, heq, hcons⟩ := pieces_cons_of_ne (s := s) hc
      obtain ⟨p', ps', heq', hcons'⟩ := pieces_cons_of_ne (s := s ++ sep :: t) hc
      rw [ih, heq] at heq'
      cases heq'
      simp [hcons, hcons']

theorem eq_append_flatMap_of_pieces {p : List Char} {ps : List (List Char)}
    (h : pieces sep s = p :: ps) : s = p ++ ps.flatMap (sep :: ·) := by
  induction s generalizing p ps with
  | nil =>
    obtain ⟨rfl, rfl⟩ := List.cons.inj h
    rfl
  | cons c s ih =>
    by_cases hc : c = sep
    · subst hc
      obtain ⟨q, qs, hq⟩ := List.exists_cons_of_ne_nil (pieces_ne_nil c s)
      rw [pieces_cons_self] at h
      obtain ⟨rfl, rfl⟩ := List.cons.inj h
      simpa [hq] using ih hq
    · obtain ⟨q, qs, hq, hcons⟩ := pieces_cons_of_ne (s := s) hc
      obtain ⟨rfl, rfl⟩ := List.cons.inj (hcons.symm.trans h)
      rw [List.cons_append, ← ih hq]

theorem pieces_flatMap_append {ps : List (List Char)} (hps : ∀ p ∈ ps, sep ∉ p) :
    pieces sep (ps.flatMap (· ++ [sep])) = ps ++ [[]] := by
  induction ps with
  | nil => rfl
  | cons p ps ih =>
    obtain ⟨hp, hps⟩ := List.forall_mem_cons.1 hps
    rw [List.flatMap_cons, List.append_assoc, List.singleton_append, pieces_append,
      pieces_of_not_mem hp, ih hps]
    rfl

theorem pieces_intercalate {ps : List (List Char)} (hne : ps ≠ []) (hps : ∀ p ∈ ps, sep ∉ p) :
    pieces sep ([sep].intercalate ps) = ps := by
  induction ps with
  | nil => exact absurd rfl hne
  | cons p ps ih =>
    obtain ⟨hp, hps⟩ := List.forall_mem_cons.1 hps
    cases ps with
    | nil => simpa [List.intercalate] using pieces_of_not_mem hp
    | cons q qs =>
      have hsplit : [sep].intercalate (p :: q :: qs) = p ++ sep :: [sep].intercalate (q :: qs) := by
        simp [List.intercalate]
      rw [hsplit, pieces_append, pieces_of_not_mem hp, ih (List.cons_ne_nil _ _) hps]
      rfl

theorem prefix_iff_of_pieces {p : List Char} {ps : List (List Char)} (ht : sep ∉ t)
    (hs : pieces sep s = p :: ps) : t <+: s ↔ t <+: p := by
  induction s generalizing t p ps with
  | nil =>
    obtain ⟨rfl, -⟩ := List.cons.inj hs
    rfl
  | cons c s ih =>
    cases t with
    | nil => simp
    | cons d t =>
      obtain ⟨hd, ht⟩ : sep ≠ d ∧ sep ∉ t := by simpa using ht
      by_cases hc : c = sep
      · subst hc
        rw [pieces_cons_self] at hs
        obtain ⟨rfl, -⟩ := List.cons.inj hs
        simp [Ne.symm hd]
      · obtain ⟨q, qs, heq, hcons⟩ := pieces_cons_of_ne (s := s) hc
        rw [hcons] at hs
        obtain ⟨rfl, -⟩ := List.cons.inj hs
        simp [List.cons_prefix_cons, ih ht heq]

theorem cons_infix_iff (ht : sep ∉ t) :
    sep :: t <:+: s ↔ ∃ p ∈ (pieces sep s).tail, t <+: p := by
  induction s with
  | nil => simp [pieces]
  | cons c s ih =>
    obtain ⟨q, qs, hq⟩ := List.exists_cons_of_ne_nil (pieces_ne_nil sep s)
    rw [List.infix_cons_iff, ih]
    by_cases hc : c = sep
    · subst hc
      simp [List.cons_prefix_cons, prefix_iff_of_pieces ht hq, hq]
    · obtain ⟨q', qs', heq, hcons⟩ := pieces_cons_of_ne (s := s) hc
      rw [hcons, heq]
      simp [List.cons_prefix_cons, Ne.symm hc]

theorem mem_of_mem_pieces {p : List Char} (h : p ∈ pieces sep s) : ∀ c ∈ p, c ∈ s ∧ c ≠ sep := by
  induction s generalizing p with
  | nil =>
    rw [pieces, List.mem_singleton] at h
    simp [h]
  | cons c s ih =>
    by_cases hc : c = sep
    · subst hc
      rw [pieces_cons_self] at h
      rcases List.mem_cons.1 h with rfl | h
      · simp
      · exact fun d hd => (ih h d hd).imp_left (List.mem_cons_of_mem _)
    · obtain ⟨q, qs, heq, hcons⟩ := pieces_cons_of_ne (s := s) hc
      rw [hcons] at h
      rw [heq] at ih
      rcases List.mem_cons.1 h with rfl | h
      · intro d hd
        rcases List.mem_cons.1 hd with rfl | hd
        · exact ⟨List.mem_cons_self, hc⟩
        · exact (ih List.mem_cons_self d hd).imp_left (List.mem_cons_of_mem _)
      · exact fun d hd =>
          (ih (List.mem_cons_of_mem _ h) d hd).imp_left (List.mem_cons_of_mem _)

end DesignDeps.Text
