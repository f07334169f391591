import DesignDeps.Proofs.FileIndex
import DesignDeps.Proofs.Text.Bytes
import DesignDeps.Resolver

/-!
# The choice among candidates

Without an override a name leads to the candidate with the fewest bytes, and of several with as many
to the one whose bytes come first (`resolve_eq_found_iff`). No two paths are equal in this order, so
the choice does not depend on the order in which an index is given its paths, nor on how often
(`resolve_ofPaths`). It would if a place were given in several spellings, since the last one stays.
-/

namespace DesignDeps

open Text

-- ---------------------------------------------------------------------------
-- The order of preference
-- ---------------------------------------------------------------------------

namespace Path

/-- Fewer bytes, or as many and less in their order. -/
def Before (p q : Path) : Prop :=
  (bytesOf p.text).length < (bytesOf q.text).length ∨
    (bytesOf p.text).length = (bytesOf q.text).length ∧ bytesOf p.text < bytesOf q.text

variable {p q s : Path}

theorem preferred_iff : p.preferred q = true ↔ p.Before q := by
  simp only [preferred, Before, Bool.or_eq_true, Bool.and_eq_true, decide_eq_true_eq, beq_iff_eq,
    length_bytesOf, lt_iff_bytesOf_lt]

theorem Before.irrefl (p : Path) : ¬p.Before p := by
  rintro (h | ⟨-, h⟩)
  · exact Nat.lt_irrefl _ h
  · exact List.lt_irrefl _ h

theorem Before.trans (h : p.Before q) (h' : q.Before s) : p.Before s := by
  rcases h with h | ⟨heq, h⟩ <;> rcases h' with h' | ⟨heq', h'⟩
  · exact .inl (Nat.lt_trans h h')
  · exact .inl (heq' ▸ h)
  · exact .inl (heq ▸ h')
  · exact .inr ⟨heq.trans heq', List.lt_trans h h'⟩

theorem Before.asymm (h : p.Before q) : ¬q.Before p :=
  fun h' => Before.irrefl p (h.trans h')

theorem eq_or_before (p q : Path) : p = q ∨ p.Before q ∨ q.Before p := by
  obtain ⟨s⟩ := p
  obtain ⟨t⟩ := q
  simp only [mk.injEq, Before, ← lt_iff_bytesOf_lt]
  rcases Nat.lt_trichotomy (bytesOf s).length (bytesOf t).length with hlength | hlength | hlength
  · exact .inr (.inl (.inl hlength))
  · by_cases heq : s = t
    · exact .inl heq
    · by_cases hlt : s < t
      · exact .inr (.inl (.inr ⟨hlength, hlt⟩))
      · exact .inr (.inr (.inr ⟨hlength.symm, lt_of_not_lt_of_ne hlt heq⟩))
  · exact .inr (.inr (.inl hlength))

end Path

section
variable {ps : List Path} {p q : Path}

theorem before_of_bestOf (h : bestOf ps = some p) : ∀ q ∈ ps, p = q ∨ p.Before q := by
  induction ps generalizing p with
  | nil => cases h
  | cons r ps ih =>
    unfold bestOf at h
    split at h
    · next hnone =>
      cases h
      simp [bestOf_eq_none_iff.1 hnone]
    · next b hbest =>
      have hb := ih hbest
      split at h
      · next hpreferred =>
        cases h
        exact List.forall_mem_cons.2 ⟨.inr (Path.preferred_iff.1 hpreferred), hb⟩
      · next hnot =>
        cases h
        rw [Path.preferred_iff] at hnot
        refine List.forall_mem_cons.2 ⟨.inl rfl, fun q hq => ?_⟩
        rcases r.eq_or_before b with rfl | hr | hr
        · exact hb q hq
        · rcases hb q hq with rfl | hq
          · exact .inr hr
          · exact .inr (hr.trans hq)
        · exact absurd hr hnot

theorem bestOf_eq_some_iff :
    bestOf ps = some p ↔ p ∈ ps ∧ ∀ q ∈ ps, p = q ∨ p.Before q := by
  refine ⟨fun h => ⟨mem_of_bestOf h, before_of_bestOf h⟩, fun ⟨hp, hfirst⟩ => ?_⟩
  cases hbest : bestOf ps with
  | none =>
    rw [bestOf_eq_none_iff.1 hbest] at hp
    cases hp
  | some b =>
    rcases hfirst b (mem_of_bestOf hbest) with rfl | hbefore
    · rfl
    · rcases before_of_bestOf hbest p hp with rfl | hafter
      · rfl
      · exact absurd hafter hbefore.asymm

end

-- ---------------------------------------------------------------------------
-- Names without an override
-- ---------------------------------------------------------------------------

/-- Of the paths that contain the token, `p` is before all others. -/
structure Chosen (ps : List Path) (token : String) (p : Path) : Prop where
  mem : p ∈ ps
  contains : token.toList <:+: p.text.toList
  first : ∀ q ∈ ps, token.toList <:+: q.text.toList → p = q ∨ p.Before q

theorem Chosen.unique {ps : List Path} {token : String} {p q : Path} (h : Chosen ps token p)
    (h' : Chosen ps token q) : q = p := by
  rcases h.first q h'.mem h'.contains with rfl | hbefore
  · rfl
  · rcases h'.first p h.mem h.contains with rfl | hafter
    · rfl
    · exact absurd hafter hbefore.asymm

namespace Resolver

variable {r : Resolver} {name : String} {p : Path}

theorem resolve_eq_excluded_iff :
    r.resolve name = .excluded ↔ r.overrides.get? name = some .excluded := by
  unfold resolve
  cases r.overrides.get? name with
  | none => cases bestOf (r.candidates name) <;> simp
  | some target => cases target <;> simp

theorem resolve_eq_unresolved_iff : r.resolve name = .unresolved ↔
    r.overrides.get? name = none ∧
      ∀ p ∈ r.index.paths, ¬(matchToken name).toList <:+: p.text.toList := by
  have hnone : r.candidates name = [] ↔
      ∀ p ∈ r.index.paths, ¬(matchToken name).toList <:+: p.text.toList := by
    simp [List.eq_nil_iff_forall_not_mem, candidates, FileIndex.mem_matching]
  rw [← hnone, ← bestOf_eq_none_iff]
  unfold resolve
  cases r.overrides.get? name with
  | none => cases bestOf (r.candidates name) <;> simp
  | some target => cases target <;> simp

theorem resolve_eq_found_iff (hget : r.overrides.get? name = none) :
    r.resolve name = .found p ↔ Chosen r.index.paths (matchToken name) p := by
  have hbest : r.resolve name = .found p ↔ bestOf (r.candidates name) = some p := by
    unfold resolve
    rw [hget]
    cases bestOf (r.candidates name) <;> simp
  rw [hbest, bestOf_eq_some_iff]
  simp only [candidates, FileIndex.mem_matching]
  constructor
  · rintro ⟨⟨hmem, hcontains⟩, hfirst⟩
    exact ⟨hmem, hcontains, fun q hq hcontains => hfirst q ⟨hq, hcontains⟩⟩
  · rintro ⟨hmem, hcontains, hfirst⟩
    exact ⟨⟨hmem, hcontains⟩, fun q hq => hfirst q hq.1 hq.2⟩

theorem exists_found (hget : r.overrides.get? name = none)
    (h : ∃ p ∈ r.index.paths, (matchToken name).toList <:+: p.text.toList) :
    ∃ p, r.resolve name = .found p := by
  obtain ⟨p, hp, hcontains⟩ := h
  cases hresolve : r.resolve name with
  | found q => exact ⟨q, rfl⟩
  | excluded =>
    rw [resolve_eq_excluded_iff, hget] at hresolve
    cases hresolve
  | unresolved => exact absurd hcontains ((resolve_eq_unresolved_iff.1 hresolve).2 p hp)

theorem resolve_congr {r' : Resolver} (hoverrides : r'.overrides = r.overrides)
    (hpaths : ∀ p, p ∈ r'.index.paths ↔ p ∈ r.index.paths) :
    r'.resolve name = r.resolve name := by
  have hbest : bestOf (r'.candidates name) = bestOf (r.candidates name) := by
    ext p
    simp only [bestOf_eq_some_iff, candidates, FileIndex.mem_matching, hpaths]
  rw [resolve, resolve, hoverrides, hbest]

-- ---------------------------------------------------------------------------
-- Indices of the same paths
-- ---------------------------------------------------------------------------

variable {ps qs : List Path} {t : Override.Table}

/-- Paths that are given in one spelling each may be given in any order and any number of times. A
name without an override leads to the first path that contains its token, in the order of
preference, and is left unresolved where there is none. -/
theorem resolve_ofPaths (hspelled : ∀ p ∈ ps, ∀ q ∈ ps, p.same q = true → p = q)
    (hmem : ∀ p, p ∈ qs ↔ p ∈ ps) (hget : t.get? name = none) :
    (⟨.ofPaths qs, t⟩ : Resolver).resolve name = (⟨.ofPaths ps, t⟩ : Resolver).resolve name ∧
    ((⟨.ofPaths qs, t⟩ : Resolver).resolve name = .unresolved ↔
      ∀ p ∈ ps, ¬(matchToken name).toList <:+: p.text.toList) ∧
    ((∃ p ∈ ps, (matchToken name).toList <:+: p.text.toList) →
      ∃ p, (⟨.ofPaths qs, t⟩ : Resolver).resolve name = .found p ∧
        Chosen ps (matchToken name) p ∧ ∀ q, Chosen ps (matchToken name) q → q = p) := by
  have hps : ∀ p, p ∈ (FileIndex.ofPaths ps).paths ↔ p ∈ ps := fun p =>
    FileIndex.mem_ofPaths_iff hspelled
  have hqs : ∀ p, p ∈ (FileIndex.ofPaths qs).paths ↔ p ∈ qs := fun p =>
    FileIndex.mem_ofPaths_iff fun p hp q hq =>
      hspelled p ((hmem p).1 hp) q ((hmem q).1 hq)
  have hresolve : (⟨.ofPaths qs, t⟩ : Resolver).resolve name =
      (⟨.ofPaths ps, t⟩ : Resolver).resolve name :=
    resolve_congr rfl fun p => (hqs p).trans ((hmem p).trans (hps p).symm)
  refine ⟨hresolve, ?_, fun hcontains => ?_⟩
  · rw [hresolve, resolve_eq_unresolved_iff]
    simp only [hps, hget, true_and]
  · obtain ⟨p, hfound⟩ := exists_found (r := ⟨.ofPaths ps, t⟩) hget (by simpa only [hps])
    obtain ⟨hp, hpcontains, hfirst⟩ := (resolve_eq_found_iff hget).1 hfound
    have hchosen : Chosen ps (matchToken name) p :=
      ⟨(hps p).1 hp, hpcontains, fun q hq => hfirst q ((hps q).2 hq)⟩
    exact ⟨p, hresolve.trans hfound, hchosen, fun q hq => hchosen.unique hq⟩

def namesakes : List Path :=
  [⟨"/r/b/ram.sv"⟩, ⟨"/r/é/ram.v"⟩, ⟨"/r/lib/old/ram.sv"⟩]

def namesakesAgain : List Path :=
  [⟨"/r/é/ram.v"⟩, ⟨"/r/lib/old/ram.sv"⟩, ⟨"/r/é/ram.v"⟩, ⟨"/r/b/ram.sv"⟩]

theorem resolve_ofPaths_namesakes :
    (∀ p ∈ namesakes, ∀ q ∈ namesakes, p.same q = true → p = q) ∧
      (∀ p, p ∈ namesakesAgain ↔ p ∈ namesakes) ∧ (∅ : Override.Table).get? "ram" = none ∧
      Chosen namesakes (matchToken "ram") ⟨"/r/b/ram.sv"⟩ ∧
      (⟨.ofPaths namesakesAgain, ∅⟩ : Resolver).resolve "ram" = .found ⟨"/r/b/ram.sv"⟩ := by
  have hspelled : ∀ p ∈ namesakes, ∀ q ∈ namesakes, p.same q = true → p = q := by
    decide +kernel
  have hmem : ∀ p, p ∈ namesakesAgain ↔ p ∈ namesakes := fun p => by
    simp only [namesakesAgain, namesakes, List.mem_cons, List.not_mem_nil, or_false]
    tauto
  have hfirst : ∀ q ∈ namesakes,
      ⟨"/r/b/ram.sv"⟩ = q ∨ Path.preferred ⟨"/r/b/ram.sv"⟩ q = true := by decide +kernel
  have hchosen : Chosen namesakes (matchToken "ram") ⟨"/r/b/ram.sv"⟩ := {
    mem := List.mem_cons_self
    contains := contains_iff.1 (by decide +kernel)
    first := fun q hq _ => (hfirst q hq).imp_right Path.preferred_iff.1 }
  have hget : (∅ : Override.Table).get? "ram" = none := Override.Table.get?_empty
  obtain ⟨-, -, hfound⟩ := resolve_ofPaths hspelled hmem hget
  obtain ⟨p, hp, -, hunique⟩ := hfound ⟨_, hchosen.mem, hchosen.contains⟩
  exact ⟨hspelled, hmem, hget, hchosen, hunique _ hchosen ▸ hp⟩

end Resolver

end DesignDeps
