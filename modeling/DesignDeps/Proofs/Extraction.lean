import DesignDeps.Dependencies
import DesignDeps.Proofs.Text.Pieces
import Mathlib.Data.List.TakeWhile

/-!
# Names found in a text

Whatever the text, the names that are searched for in it consist of word characters and dots
(`isNameChar_of_mem_all`). They hold no separator and no line break, so none of them is a path.
-/

namespace DesignDeps

open Text

def IsNameChar (c : Char) : Prop :=
  isWord c = true ∨ c = '.'

instance (c : Char) : Decidable (IsNameChar c) :=
  inferInstanceAs (Decidable (_ ∨ _))

theorem isNameChar_of_all {s : List Char} (h : s.all (fun c => IsNameChar c) = true) :
    ∀ c ∈ s, IsNameChar c := by
  simpa using h

theorem IsNameChar.ne {c d : Char} (h : IsNameChar c) (hd : isWord d = false) (hdot : d ≠ '.') :
    c ≠ d := by
  rintro rfl
  rcases h with h | h
  · simp [hd] at h
  · exact hdot h

namespace Text.Pattern

variable {α : Type} {p : Pattern α} {P : α → Prop}

theorem forall_mem_findAll (h : ∀ {s a rest}, p.read s = some (a, rest) → P a) (s : List Char) :
    ∀ a ∈ p.findAll s, P a := by
  fun_induction findAll p s with
  | case1 => simp
  | case2 c cs a rest hread ih =>
    intro b hb
    rcases List.mem_cons.1 hb with rfl | hb
    · exact h hread
    · exact ih b hb
  | case3 c cs hread ih => exact ih

end Text.Pattern

theorem mem_run? {p : Char → Bool} {s t rest : List Char} (h : run? p s = some (t, rest)) :
    ∀ c ∈ t, p c = true := by
  obtain ⟨-, rfl, -⟩ := run?_eq_some_iff.1 h
  exact fun c hc => List.mem_takeWhile_imp hc

namespace Path

theorem anchored_suffix (s : List Char) : (anchored s).2 <:+ s := by
  unfold anchored
  split
  · exact List.suffix_cons ..
  · exact List.nil_suffix
  · exact List.suffix_cons ..
  · exact List.suffix_refl _

theorem name_not_mem_components {name : String} (a : Anchor) : .name name ∉ a.components := by
  cases a <;> simp [Anchor.components]

theorem mem_fileName? {p : Path} {name : String} (h : p.fileName? = some name) :
    ∀ c ∈ name.toList, c ∈ p.text.toList ∧ c ≠ '/' := by
  have hmem : Component.name name ∈ p.components := by
    unfold fileName? at h
    split at h
    · next s hlast =>
      cases h
      exact List.mem_of_getLast? hlast
    · cases h
  unfold components at hmem
  rcases List.mem_append.1 hmem with hmem | hmem
  · exact absurd hmem (name_not_mem_components _)
  · obtain ⟨piece, hpiece, hname⟩ := List.mem_map.1 hmem
    unfold Component.ofPiece at hname
    split at hname
    · cases hname
    · cases hname
      intro c hc
      rw [String.toList_ofList] at hc
      have hc := mem_of_mem_pieces (List.mem_filter.1 hpiece).1 c hc
      exact ⟨(anchored_suffix _).subset hc.1, hc.2⟩

theorem mem_joinPieces {ps : List (List Char)} {c : Char} (h : c ∈ joinPieces ps) :
    c = '/' ∨ ∃ piece ∈ ps, c ∈ piece := by
  induction ps with
  | nil => cases h
  | cons p ps ih =>
    cases ps with
    | nil => exact .inr ⟨p, by simp, by simpa [joinPieces, List.intercalate] using h⟩
    | cons q qs =>
      have hsplit : joinPieces (p :: q :: qs) = p ++ '/' :: joinPieces (q :: qs) := by
        simp [joinPieces, List.intercalate]
      rw [hsplit, List.mem_append, List.mem_cons] at h
      rcases h with h | h | h
      · exact .inr ⟨p, by simp, h⟩
      · exact .inl h
      · obtain hslash | ⟨piece, hpiece, hc⟩ := ih h
        · exact .inl hslash
        · exact .inr ⟨piece, List.mem_cons_of_mem _ hpiece, hc⟩

theorem dropIdle_subset (ps : List (List Char)) : dropIdle ps ⊆ ps := by
  intro piece hpiece
  have hmem := (List.dropWhile_sublist _).subset (List.mem_reverse.1 hpiece)
  exact List.mem_reverse.1 hmem

/-- Taking away the last component brings no new characters in, except for those that paths are
made of. -/
theorem mem_parent? {p q : Path} (h : p.parent? = some q) :
    ∀ c ∈ q.text.toList, c ∈ p.text.toList ∨ c = '/' ∨ c = '.' := by
  unfold parent? at h
  dsimp only at h
  split at h
  · split at h
    · cases h
      simp
    · cases h
  · cases h
    intro c hc
    rw [String.toList_ofList, List.mem_append] at hc
    rcases hc with hc | hc
    · generalize (anchored p.text.toList).1 = anchor at hc
      cases anchor <;> simp_all [Anchor.text]
    · rcases mem_joinPieces hc with rfl | ⟨piece, hpiece, hc⟩
      · exact .inr (.inl rfl)
      · have hpiece := dropIdle_subset _
          ((List.dropLast_sublist _).subset (dropIdle_subset _ hpiece))
        exact .inl ((anchored_suffix _).subset (mem_of_mem_pieces hpiece c hc).1)

end Path

namespace Dependencies

theorem readInclude_chars {s path rest : List Char} (h : readInclude s = some (path, rest)) :
    ∀ c ∈ path, isIncludeChar c = true := by
  simp only [readInclude, Option.bind_eq_bind, Option.bind_eq_some_iff, Prod.exists] at h
  obtain ⟨-, -, -, s₂, -, h⟩ := h
  cases s₂ with
  | nil => cases h
  | cons c s₃ =>
    dsimp only at h
    split at h
    · simp only [Option.bind_eq_some_iff, Prod.exists] at h
      obtain ⟨path', s₄, hrun, h⟩ := h
      cases s₄ with
      | nil => cases h
      | cons d s₅ =>
        dsimp only at h
        split at h
        · cases h
          exact mem_run? hrun
        · cases h
    · cases h

theorem readPackage_chars {s package rest : List Char}
    (h : readPackage s = some (package, rest)) : ∀ c ∈ package, isWord c = true := by
  simp only [readPackage, Option.bind_eq_bind, Option.bind_eq_some_iff, Prod.exists,
    Option.pure_def, Option.some.injEq, Prod.mk.injEq] at h
  obtain ⟨_, _, hrun, _, _, _, _, _, rfl, _⟩ := h
  exact mem_run? hrun

theorem readInstance_chars {s module rest : List Char}
    (h : readInstance s = some (module, rest)) : ∀ c ∈ module, isWord c = true := by
  simp only [readInstance, Option.bind_eq_bind, Option.bind_eq_some_iff, Prod.exists,
    Option.pure_def, Option.some.injEq, Prod.mk.injEq] at h
  obtain ⟨_, _, hrun, _, _, _, _, _, _, _, _, _, _, rfl, _⟩ := h
  exact mem_run? hrun

theorem isNameChar_of_mem_all {module text n : String} (h : n ∈ (ofText module text).all) :
    ∀ c ∈ n.toList, IsNameChar c := by
  rcases mem_all.1 h with h | h | h
  · -- Paths are read with their separators, but only the file's name is kept.
    simp only [ofText, includesOf, NameSet.mem_ofList] at h
    obtain ⟨path, hpath, hname⟩ := List.mem_filterMap.1 (List.mem_filter.1 h).1
    intro c hc
    obtain ⟨hmem, hslash⟩ := Path.mem_fileName? hname c hc
    rw [String.toList_ofList] at hmem
    have hchar := Pattern.forall_mem_findAll (p := includeUse) readInclude_chars _ path hpath c hmem
    simpa [isIncludeChar, IsNameChar, hslash] using hchar
  · simp only [ofText, packagesOf, NameSet.mem_ofList] at h
    obtain ⟨word, hword, rfl⟩ := List.mem_map.1 (List.mem_filter.1 h).1
    rw [String.toList_ofList]
    exact fun c hc =>
      .inl (Pattern.forall_mem_findAll (p := packageUse) readPackage_chars _ word hword c hc)
  · simp only [ofText, instancesOf, NameSet.mem_ofList] at h
    obtain ⟨word, hword, rfl⟩ := List.mem_map.1 (List.mem_filter.1 h).1
    rw [String.toList_ofList]
    exact fun c hc =>
      .inl (Pattern.forall_mem_findAll (p := instanceUse) readInstance_chars _ word hword c hc)

end Dependencies

end DesignDeps
