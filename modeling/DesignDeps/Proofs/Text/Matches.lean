import DesignDeps.Proofs.Text.Search
import Mathlib.Data.List.Infix

/-!
# Where a search looks for matches

Matches do not overlap, so a text that could be read is missed if it begins inside of a match that
is found before it. `Tries` are the ends of a text that a search comes to: what is found is read
there (`mem_findAll_iff`), and every other end begins inside of a match (`tries_or_covered`).

A pattern that begins with a word is read only where a word begins (`Tries.begins_word`).
-/

namespace DesignDeps.Text

namespace Pattern

variable {α : Type} {p : Pattern α} {s t u v rest : List Char} {a : α}

/-- The search through `s` tries to read a match off `u`. -/
inductive Tries (p : Pattern α) : List Char → List Char → Prop
  | here {s : List Char} : Tries p s s
  | past {c : Char} {s u : List Char} : p.read (c :: s) = none → Tries p s u → Tries p (c :: s) u
  | behind {a : α} {s rest u : List Char} :
      p.read s = some (a, rest) → Tries p rest u → Tries p s u

theorem mem_findAll_iff :
    a ∈ p.findAll s ↔ ∃ u rest, p.Tries s u ∧ p.read u = some (a, rest) := by
  constructor
  · intro h
    fun_induction findAll p s with
    | case1 => simp at h
    | case2 c s b rest hread ih =>
      rcases List.mem_cons.1 h with rfl | h
      · exact ⟨_, _, .here, hread⟩
      · obtain ⟨u, r, htries, hu⟩ := ih h
        exact ⟨u, r, .behind hread htries, hu⟩
    | case3 c s hread ih =>
      obtain ⟨u, r, htries, hu⟩ := ih h
      exact ⟨u, r, .past hread htries, hu⟩
  · rintro ⟨u, r, htries, hu⟩
    induction htries with
    | here => simp [findAll_read hu]
    | past hread _ ih => simpa [findAll_cons, hread] using ih hu
    | behind hread _ ih => simp [findAll_read hread, ih hu]

def Consumes (p : Pattern α) : Prop :=
  ∀ {s a rest}, p.read s = some (a, rest) → rest <:+ s

def Covered (p : Pattern α) (s u : List Char) : Prop :=
  ∃ v a rest, p.Tries s v ∧ p.read v = some (a, rest) ∧ (u <:+ v ∧ u ≠ v) ∧ rest <:+ u ∧ rest ≠ u

theorem Tries.suffix (hp : p.Consumes) (h : p.Tries s u) : u <:+ s := by
  induction h with
  | here => exact List.suffix_refl _
  | past _ _ ih => exact ih.trans (List.suffix_cons _ _)
  | behind hread _ ih => exact ih.trans (hp hread)

theorem tries_or_covered (hp : p.Consumes) (h : u <:+ s) : p.Tries s u ∨ p.Covered s u := by
  fun_induction findAll p s with
  | case1 =>
    obtain rfl := List.suffix_nil.1 h
    exact .inl .here
  | case2 c s a rest hread ih =>
    by_cases hu : u = c :: s
    · exact hu ▸ .inl .here
    · rcases List.suffix_or_suffix_of_suffix h (hp hread) with hrest | hrest
      · exact (ih hrest).imp (.behind hread) fun ⟨v, b, r, htries, hv⟩ =>
          ⟨v, b, r, .behind hread htries, hv⟩
      · by_cases hend : rest = u
        · exact hend ▸ .inl (.behind hread .here)
        · exact .inr ⟨_, _, _, .here, hread, ⟨h, hu⟩, hrest, hend⟩
  | case3 c s hread ih =>
    rcases List.suffix_cons_iff.1 h with rfl | h
    · exact .inl .here
    · exact (ih h).imp (.past hread) fun ⟨v, b, r, htries, hv⟩ =>
        ⟨v, b, r, .past hread htries, hv⟩

theorem Tries.suffix_rest (hp : p.Consumes) (hu : p.Tries s u) (hv : p.Tries s v)
    (hread : p.read v = some (a, rest)) (h : u <:+ v) (hne : u ≠ v) : u <:+ rest := by
  induction hv with
  | here =>
    cases hu with
    | here => exact absurd rfl hne
    | past hnone => simp [hread] at hnone
    | behind hread' hu =>
      rw [hread] at hread'
      cases hread'
      exact hu.suffix hp
  | @past c s v hnone hv ih =>
    cases hu with
    | here =>
      have hlen := (h.trans (hv.suffix hp)).length_le
      exact absurd hlen (by simp)
    | past _ hu => exact ih hu hread h hne
    | behind hread' => simp [hnone] at hread'
  | @behind s b r v hread' hv ih =>
    cases hu with
    | here =>
      have hlen := (h.trans (hv.suffix hp)).length_le
      exact absurd (p.shrinks hread') (Nat.not_lt.2 hlen)
    | past hnone => simp [hnone] at hread'
    | behind hread'' hu =>
      rw [hread'] at hread''
      cases hread''
      exact ih hu hread h hne

theorem Tries.not_covered (hp : p.Consumes) (h : p.Tries s u) : ¬p.Covered s u := by
  rintro ⟨v, a, rest, hv, hread, ⟨hsuffix, hne⟩, hrest, hend⟩
  have hbehind := h.suffix_rest hp hv hread hsuffix hne
  exact hend (hrest.eq_of_length_le hbehind.length_le)

-- ---------------------------------------------------------------------------
-- Patterns that begin with a word
-- ---------------------------------------------------------------------------

/-- No word goes on from the end of `s` into `t`. -/
def Apart (s t : List Char) : Prop :=
  ∀ c ∈ s.getLast?, isWord c = true → ∀ d ∈ t.head?, isWord d = false

/-- A match begins with a whole word, and it does not end where a word goes on. -/
structure LedByWord (p : Pattern (List Char)) : Prop where
  word : ∀ {s w rest}, p.read s = some (w, rest) →
    ∃ t, s = w ++ t ∧ w ≠ [] ∧ (∀ c ∈ w, isWord c = true) ∧ ∀ c ∈ t.head?, isWord c = false
  later : ∀ {c d s}, isWord c = true → isWord d = true → p.read (c :: d :: s) = none →
    p.read (d :: s) = none
  ends : ∀ {s w rest}, p.read s = some (w, rest) → ∃ taken, s = taken ++ rest ∧ Apart taken rest

variable {q : Pattern (List Char)} {front w : List Char}

theorem LedByWord.consumes (hq : q.LedByWord) : q.Consumes := fun h => by
  obtain ⟨taken, rfl, -⟩ := hq.ends h
  exact List.suffix_append _ _

theorem LedByWord.isWord_head (hq : q.LedByWord) (h : q.read u = some (w, rest)) :
    ∃ c ∈ u.head?, isWord c = true := by
  obtain ⟨t, rfl, hne, hword, -⟩ := hq.word h
  obtain ⟨c, cs, rfl⟩ := List.exists_cons_of_ne_nil hne
  exact ⟨c, rfl, hword c List.mem_cons_self⟩

theorem LedByWord.read_eq_none (hq : q.LedByWord) (h : ∀ c ∈ u.head?, isWord c = false) :
    q.read u = none := by
  cases hread : q.read u with
  | none => rfl
  | some r =>
    obtain ⟨c, hc, hword⟩ := hq.isWord_head hread
    simp [h c hc] at hword

theorem Tries.read_eq_none (hq : q.LedByWord) (h : q.Tries (front ++ u) u)
    (hlast : ∃ c ∈ front.getLast?, isWord c = true) : q.read u = none := by
  generalize hs : front ++ u = s at h
  induction h generalizing front with
  | here =>
    obtain rfl := List.append_left_eq_self.1 hs
    simp at hlast
  | @past c s u hnone htries ih =>
    obtain _ | ⟨d, front⟩ := front
    · simp at hlast
    obtain ⟨rfl, rfl⟩ := List.cons.inj hs
    cases front with
    | cons e front => exact ih (by simpa [List.getLast?_cons_cons] using hlast) rfl
    | nil =>
      have hd : isWord d = true := by simpa using hlast
      cases u with
      | nil => exact read_nil
      | cons e u =>
        by_cases he : isWord e = true
        · exact hq.later hd he hnone
        · exact hq.read_eq_none (by simpa using he)
  | @behind s w rest u hread htries ih =>
    obtain ⟨taken, rfl, hapart⟩ := hq.ends hread
    obtain ⟨front', rfl⟩ := htries.suffix hq.consumes
    have hfront : front = taken ++ front' := by simpa [← List.append_assoc] using hs
    subst hfront
    cases front' with
    | cons e front' => exact ih (by simpa [List.getLast?_append] using hlast) rfl
    | nil =>
      obtain ⟨c, hc, hword⟩ := hlast
      exact hq.read_eq_none (hapart c (by simpa using hc) hword)

theorem Tries.begins_word (hq : q.LedByWord) (h : q.Tries (front ++ u) u)
    (hread : q.read u = some (w, rest)) : ∀ c ∈ front.getLast?, isWord c = false := by
  intro c hc
  rw [Bool.eq_false_iff]
  intro hword
  simp [h.read_eq_none hq ⟨c, hc, hword⟩] at hread

end Pattern

end DesignDeps.Text
