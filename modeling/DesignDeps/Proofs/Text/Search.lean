import DesignDeps.Text.Char
import DesignDeps.Text.Pattern
import Mathlib.Data.List.TakeWhile

/-!
# Searching texts put together from parts

A search goes through a text from left to right, so what it does to a text of several parts is known
once it is known of each part what stands behind it: a part where nothing matches is passed over
(`replaceAll_skip`, `findAll_skip`), and a part that matches is taken out (`replaceAll_read`,
`findAll_read`).
-/

namespace DesignDeps.Text

-- ---------------------------------------------------------------------------
-- Runs of characters
-- ---------------------------------------------------------------------------

section
variable {p : Char → Bool} {w rest : List Char}

theorem takeWhile_run (hw : ∀ c ∈ w, p c = true) (hrest : ∀ c ∈ rest.head?, p c = false) :
    (w ++ rest).takeWhile p = w := by
  rw [List.takeWhile_append_of_pos hw]
  cases rest with
  | nil => simp
  | cons c rest => simp [hrest c rfl]

theorem dropWhile_run (hw : ∀ c ∈ w, p c = true) (hrest : ∀ c ∈ rest.head?, p c = false) :
    (w ++ rest).dropWhile p = rest := by
  rw [List.dropWhile_append_of_pos hw]
  cases rest with
  | nil => simp
  | cons c rest => simp [hrest c rfl]

theorem run?_append (hne : w ≠ []) (hw : ∀ c ∈ w, p c = true)
    (hrest : ∀ c ∈ rest.head?, p c = false) : run? p (w ++ rest) = some (w, rest) :=
  run?_eq_some_iff.2 ⟨hne, (takeWhile_run hw hrest).symm, (dropWhile_run hw hrest).symm⟩

theorem append_of_run? {s : List Char} (h : run? p s = some (w, rest)) :
    s = w ++ rest ∧ w ≠ [] ∧ (∀ c ∈ w, p c = true) ∧ ∀ c ∈ rest.head?, p c = false := by
  obtain ⟨hne, rfl, rfl⟩ := run?_eq_some_iff.1 h
  refine ⟨List.takeWhile_append_dropWhile.symm, hne, fun c hc => List.mem_takeWhile_imp hc, ?_⟩
  intro c hc
  simpa [Option.mem_def.1 hc] using List.head?_dropWhile_not p s

theorem head?_append_of_forall (hw : ∀ c ∈ w, p c = false) (hrest : ∀ c ∈ rest.head?, p c = false) :
    ∀ c ∈ (w ++ rest).head?, p c = false := by
  cases w with
  | nil => exact hrest
  | cons d w =>
    rintro _ ⟨⟩
    exact hw d List.mem_cons_self

theorem not_mem_takeWhile_insert {c : Char} {s t u : List Char} (h : c ∉ (s ++ t).takeWhile p)
    (hu : c ∉ u) : c ∉ (s ++ (u ++ t)).takeWhile p := by
  induction s with
  | nil =>
    induction u with
    | nil => exact h
    | cons e u ih =>
      rw [List.mem_cons, not_or] at hu
      have hrest : c ∉ (u ++ t).takeWhile p := ih hu.2
      rw [List.nil_append, List.cons_append, List.takeWhile_cons]
      split <;> simp [hu.1, hrest]
  | cons e s ih =>
    rw [List.cons_append, List.takeWhile_cons] at h ⊢
    by_cases he : p e = true
    · rw [if_pos he, List.mem_cons, not_or] at h ⊢
      exact ⟨h.1, ih h.2⟩
    · simp [he]

theorem run?_cons_of_not {c : Char} (h : p c = false) : run? p (c :: rest) = none := by
  simp [run?, h]

end

-- ---------------------------------------------------------------------------
-- Classes of characters
-- ---------------------------------------------------------------------------

theorem ne_of_class {p : Char → Bool} {c d : Char} (hc : p c = true) (hd : p d = false) :
    c ≠ d := by
  rintro rfl
  simp [hc] at hd

def blankCodes : List Nat :=
  List.range' 9 5 ++ [0x20, 0x85, 0xa0, 0x1680] ++ List.range' 0x2000 11 ++
    [0x2028, 0x2029, 0x202f, 0x205f, 0x3000]

theorem isWord_of_isBlank {c : Char} (h : isBlank c = true) : isWord c = false := by
  have hcode : c.toNat ∈ blankCodes := by
    simp only [isBlank, Bool.or_eq_true, Bool.and_eq_true, decide_eq_true_eq, beq_iff_eq] at h
    simp only [blankCodes, List.mem_append, List.mem_range'_1, List.mem_cons, List.not_mem_nil]
    omega
  have hword : ∀ n ∈ blankCodes, isWord (Char.ofNat n) = false := by decide +kernel
  rw [← Char.ofNat_toNat c]
  exact hword _ hcode

theorem isBlank_of_isWord {c : Char} (h : isWord c = true) : isBlank c = false := by
  rw [Bool.eq_false_iff]
  intro hblank
  rw [isWord_of_isBlank hblank] at h
  cases h

-- ---------------------------------------------------------------------------
-- Pairs of characters
-- ---------------------------------------------------------------------------

section
variable {b c d : Char} {s t : List Char}

theorem not_pair_singleton : ¬[b, c] <:+: [d] :=
  fun h => by simpa using h.length_le

theorem not_pair_suffix (hs : ¬[b, c] <:+: s) (h : t <:+ s) : ¬[b, c] <:+: t :=
  fun hpair => hs (hpair.trans h.isInfix)

theorem not_pair_front (hs : ¬[b, c] <:+: d :: s)
    (hmeet : (d :: s).getLast? = some b → ∀ e ∈ t.head?, e ≠ c) : ¬[b, c] <+: d :: (s ++ t) := by
  intro hpair
  obtain ⟨rfl, hnext⟩ := List.cons_prefix_cons.1 hpair
  cases s with
  | nil =>
    have hhead : t.head? = some c := List.singleton_prefix_iff_head?_eq_some.1 hnext
    exact hmeet rfl c hhead rfl
  | cons e s =>
    obtain ⟨rfl, -⟩ := List.cons_prefix_cons.1 hnext
    exact hs ⟨[], s, rfl⟩

theorem not_pair_append (hs : ¬[b, c] <:+: s) (ht : ¬[b, c] <:+: t)
    (hmeet : s.getLast? = some b → ∀ e ∈ t.head?, e ≠ c) : ¬[b, c] <:+: s ++ t := by
  induction s with
  | nil => exact ht
  | cons d s ih =>
    have hfirst := not_pair_front hs hmeet
    rw [List.infix_cons_iff, not_or] at hs
    rw [List.cons_append, List.infix_cons_iff, not_or]
    exact ⟨hfirst, ih hs.2 fun hlast => hmeet (by simp [List.getLast?_cons, hlast])⟩

end

-- ---------------------------------------------------------------------------
-- Matches
-- ---------------------------------------------------------------------------

namespace Pattern

variable {α : Type} {p : Pattern α} {new s t u rest : List Char} {a : α}

def Skips (p : Pattern α) (t : List Char) : List Char → Prop
  | [] => True
  | c :: s => p.read (c :: (s ++ t)) = none ∧ p.Skips t s

theorem replaceAll_skip (h : p.Skips t s) :
    p.replaceAll new (s ++ t) = s ++ p.replaceAll new t := by
  induction s with
  | nil => rfl
  | cons c s ih =>
    rw [List.cons_append, replaceAll_cons, h.1]
    exact congrArg (c :: ·) (ih h.2)

theorem findAll_skip (h : p.Skips t s) : p.findAll (s ++ t) = p.findAll t := by
  induction s with
  | nil => rfl
  | cons c s ih =>
    rw [List.cons_append, findAll_cons, h.1]
    exact ih h.2

theorem read_eq_none_of_pair {b c : Char} (hread : ∀ {u r}, p.read u = some r → [b, c] <+: u)
    (hs : ¬[b, c] <+: s) : p.read s = none := by
  cases hr : p.read s with
  | none => rfl
  | some r => exact absurd (hread hr) hs

theorem skips_of_pair {b c : Char} (hread : ∀ {u r}, p.read u = some r → [b, c] <+: u)
    (hs : ¬[b, c] <:+: s) (ht : s.getLast? = some b → ∀ d ∈ t.head?, d ≠ c) : p.Skips t s := by
  induction s with
  | nil => trivial
  | cons d s ih =>
    have hfirst := not_pair_front hs ht
    rw [List.infix_cons_iff, not_or] at hs
    exact ⟨read_eq_none_of_pair hread hfirst,
      ih hs.2 fun hlast => ht (by simp [List.getLast?_cons, hlast])⟩

theorem skips_of_forall (h : ∀ c ∈ s, ∀ r, p.read (c :: r) = none) : p.Skips t s := by
  induction s with
  | nil => trivial
  | cons c s ih =>
    exact ⟨h c List.mem_cons_self _, ih fun d hd => h d (List.mem_cons_of_mem _ hd)⟩

theorem Skips.append (h : p.Skips (t ++ u) s) (h' : p.Skips u t) : p.Skips u (s ++ t) := by
  induction s with
  | nil => exact h'
  | cons c s ih => exact ⟨by simpa using h.1, ih h.2⟩

theorem Skips.read_eq_none (h : p.Skips u t) (hs : s <:+ t) (hne : s ≠ []) :
    p.read (s ++ u) = none := by
  induction t with
  | nil => exact absurd (List.suffix_nil.1 hs) hne
  | cons c t ih =>
    rcases List.suffix_cons_iff.1 hs with rfl | hs
    · exact h.1
    · exact ih h.2 hs

theorem replaceAll_append
    (h : ∀ c s, p.read (c :: (s ++ t)) = (p.read (c :: s)).map fun r => (r.1, r.2 ++ t)) :
    p.replaceAll new (s ++ t) = p.replaceAll new s ++ p.replaceAll new t := by
  fun_induction replaceAll p new s with
  | case1 => rfl
  | case2 c s a rest hread ih =>
    have hread' := h c s
    rw [hread, Option.map_some] at hread'
    rw [List.cons_append, replaceAll_cons, hread', List.append_assoc, ← ih]
  | case3 c s hread ih =>
    have hread' := h c s
    rw [hread, Option.map_none] at hread'
    rw [List.cons_append, replaceAll_cons, hread', List.cons_append, ← ih]

theorem replaceAll_sublist (h : ∀ {s a rest}, p.read s = some (a, rest) → rest <:+ s)
    (s : List Char) : (p.replaceAll [] s).Sublist s := by
  fun_induction replaceAll p [] s with
  | case1 => exact .slnil
  | case2 c s a rest hread ih => exact ih.trans (h hread).sublist
  | case3 c s hread ih => exact ih.cons_cons c

theorem read_nil : p.read [] = none := by
  cases h : p.read [] with
  | none => rfl
  | some r => exact absurd (p.shrinks h) (by simp)

theorem replaceAll_read (h : p.read s = some (a, rest)) :
    p.replaceAll new s = new ++ p.replaceAll new rest := by
  cases s with
  | nil =>
    rw [read_nil] at h
    cases h
  | cons c s => rw [replaceAll_cons, h]

theorem findAll_read (h : p.read s = some (a, rest)) : p.findAll s = a :: p.findAll rest := by
  cases s with
  | nil =>
    rw [read_nil] at h
    cases h
  | cons c s => rw [findAll_cons, h]

end Pattern

end DesignDeps.Text
