import DesignDeps.FileIndex
import DesignDeps.Proofs.Path.Spelling
import DesignDeps.Proofs.Text.Bytes
import Mathlib.Data.List.Induction
import Mathlib.Data.List.Nodup
import Mathlib.Data.List.Sort

/-!
# The files of an index

Paths are ordered by their components, and those with the same components are equal in this order
(`Path.compare_eq_iff`). The files of an index are strictly ascending, so no place is in it twice
(`ascending_ofPaths`), and each place is spelled as it was given last (`mem_ofPaths_iff_lastGiven`).
An index that is built again from its files is the same (`ofPaths_places`).
-/

namespace DesignDeps

open Text

-- ---------------------------------------------------------------------------
-- The order of paths
-- ---------------------------------------------------------------------------

namespace Path

def Component.nameText : Component → String
  | .name s => s
  | .root | .here | .up => ""

theorem Component.compare_eq :
    Component.compare = compareLex (compareOn Component.rank) (compareOn Component.nameText) := by
  funext c d
  cases c <;> cases d <;> rfl

instance : Std.TransCmp Component.compare :=
  Component.compare_eq ▸ inferInstance

instance : Std.LawfulEqCmp Component.compare where
  eq_of_compare {c d} h := by
    cases c <;> cases d <;> simp_all [Component.compare, Component.rank]

theorem compareComponents_eq : compareComponents = List.compareLex Component.compare := by
  funext cs ds
  induction cs generalizing ds with
  | nil => cases ds <;> rfl
  | cons c cs ih =>
    cases ds with
    | nil => rfl
    | cons d ds =>
      rw [compareComponents, ih, List.compareLex_cons_cons]

instance : Std.TransCmp compareComponents :=
  compareComponents_eq ▸ inferInstance

instance : Std.TransCmp Path.compare where
  eq_swap {p q} :=
    (Std.OrientedCmp.eq_swap : compareComponents p.components q.components = _)
  isLE_trans {p _ r} hpq hqr :=
    (Std.TransCmp.isLE_trans hpq hqr : (compareComponents p.components r.components).isLE = true)

theorem compare_eq_iff {p q : Path} : p.compare q = .eq ↔ p.same q = true := by
  rw [compare, compareComponents_eq, Std.LawfulEqCmp.compare_eq_iff_eq, same, beq_iff_eq]

/-- Components are in the order of their kinds, and names in that of their bytes. -/
inductive Component.Precedes : Component → Component → Prop
  | kind {c d} : c.rank < d.rank → Precedes c d
  | name {s t} : bytesOf s < bytesOf t → Precedes (.name s) (.name t)

/-- The components of the paths are in lexicographic order. -/
def Precedes (p q : Path) : Prop :=
  List.Lex Component.Precedes p.components q.components

theorem Component.compare_eq_lt_iff {c d : Component} : c.compare d = .lt ↔ c.Precedes d := by
  fun_cases Component.compare c d with
  | case1 s t =>
    have hlt : Ord.compare s t = .lt ↔ s < t := compareOfLessAndEq_eq_lt
    rw [hlt, lt_iff_bytesOf_lt]
    constructor
    · exact .name
    · rintro (h | h)
      · exact absurd h (Nat.lt_irrefl _)
      · exact h
  | case2 c d hnames =>
    rw [Std.compare_eq_lt]
    constructor
    · exact .kind
    · rintro (h | h)
      · exact h
      · exact (hnames _ _ rfl rfl).elim

theorem compareComponents_eq_lt_iff {cs ds : List Component} :
    compareComponents cs ds = .lt ↔ List.Lex Component.Precedes cs ds := by
  induction cs generalizing ds with
  | nil => cases ds <;> simp [compareComponents]
  | cons c cs ih =>
    cases ds with
    | nil => simp [compareComponents]
    | cons d ds =>
      rw [compareComponents, Ordering.then_eq_lt, ih, Component.compare_eq_lt_iff,
        Std.LawfulEqCmp.compare_eq_iff_eq, List.cons_lex_cons_iff]

theorem compare_eq_lt_iff {p q : Path} : p.compare q = .lt ↔ p.Precedes q :=
  compareComponents_eq_lt_iff

end Path

-- ---------------------------------------------------------------------------
-- Entering paths
-- ---------------------------------------------------------------------------

namespace FileIndex

def Ascending (ps : List Path) : Prop :=
  ps.Pairwise fun p q => p.compare q = .lt

section
variable {p q : Path} {ps qs : List Path}

theorem Ascending.nodup_components (h : Ascending ps) : (ps.map Path.components).Nodup := by
  refine List.pairwise_map.2 (h.imp fun hlt heq => ?_)
  rw [Path.compare_eq_iff.2 (beq_iff_eq.2 heq)] at hlt
  cases hlt

theorem Ascending.nodup (h : Ascending ps) : ps.Nodup :=
  h.nodup_components.of_map

theorem not_same_of_lt (h : p.compare q = .lt) : q.same p = false := by
  rw [Bool.eq_false_iff, ne_eq, ← Path.compare_eq_iff, Std.OrientedCmp.gt_iff_lt.2 h]
  decide

theorem not_same_of_gt (h : p.compare q = .gt) : q.same p = false := by
  rw [Bool.eq_false_iff, ne_eq, ← Path.compare_eq_iff, Std.OrientedCmp.gt_iff_lt.1 h]
  decide

theorem mem_insertInto (h : Ascending qs) :
    q ∈ insertInto p qs ↔ q = p ∨ q ∈ qs ∧ q.same p = false := by
  fun_induction insertInto p qs with
  | case1 => simp
  | case2 r qs hlt =>
    have hall : ∀ q ∈ r :: qs, q.same p = false := fun q hq => by
      rcases List.mem_cons.1 hq with rfl | hq
      · exact not_same_of_lt hlt
      · exact not_same_of_lt (Std.TransCmp.lt_trans hlt (List.rel_of_pairwise_cons h hq))
    rw [List.mem_cons]
    exact or_congr_right ⟨fun hq => ⟨hq, hall q hq⟩, And.left⟩
  | case3 r qs heq =>
    have hr : r.same p = true := Path.compare_eq_iff.1 (Std.OrientedCmp.eq_symm heq)
    have hqs : ∀ q ∈ qs, q.same p = false := fun q hq =>
      not_same_of_lt (Std.TransCmp.lt_of_eq_of_lt heq (List.rel_of_pairwise_cons h hq))
    grind
  | case4 r qs hgt ih =>
    have hr : r.same p = false := not_same_of_gt hgt
    have hqs := ih (List.Pairwise.of_cons h)
    grind

theorem Ascending.insertInto (h : Ascending qs) (p : Path) :
    Ascending (FileIndex.insertInto p qs) := by
  fun_induction FileIndex.insertInto p qs with
  | case1 => exact List.pairwise_singleton _ _
  | case2 r qs hlt =>
    refine List.pairwise_cons.2 ⟨fun q hq => ?_, h⟩
    rcases List.mem_cons.1 hq with rfl | hq
    · exact hlt
    · exact Std.TransCmp.lt_trans hlt (List.rel_of_pairwise_cons h hq)
  | case3 r qs heq =>
    obtain ⟨hr, hqs⟩ := List.pairwise_cons.1 h
    exact List.pairwise_cons.2 ⟨fun q hq => Std.TransCmp.lt_of_eq_of_lt heq (hr q hq), hqs⟩
  | case4 r qs hgt ih =>
    obtain ⟨hr, hqs⟩ := List.pairwise_cons.1 h
    refine List.pairwise_cons.2 ⟨fun q hq => ?_, ih hqs⟩
    rcases (mem_insertInto hqs).1 hq with rfl | ⟨hq, -⟩
    · exact Std.OrientedCmp.gt_iff_lt.1 hgt
    · exact hr q hq

theorem ofPaths_append_singleton (ps : List Path) (p : Path) :
    (ofPaths (ps ++ [p])).paths = insertInto p (ofPaths ps).paths := by
  simp [ofPaths]

theorem ascending_ofPaths (ps : List Path) : Ascending (ofPaths ps).paths := by
  induction ps using List.reverseRecOn with
  | nil => exact .nil
  | append_singleton ps p ih => exact ofPaths_append_singleton ps p ▸ ih.insertInto p

/-- `p` is given, and no other spelling of its place is given behind it. -/
def LastGiven (ps : List Path) (p : Path) : Prop :=
  ∃ front back, ps = front ++ p :: back ∧ ∀ q ∈ back, q.components ≠ p.components

theorem LastGiven.mem (h : LastGiven ps p) : p ∈ ps := by
  obtain ⟨front, back, rfl, -⟩ := h
  exact List.mem_append_right _ List.mem_cons_self

theorem lastGiven_concat :
    LastGiven (ps ++ [q]) p ↔ p = q ∨ LastGiven ps p ∧ p.same q = false := by
  have hsame : p.same q = false ↔ q.components ≠ p.components := by
    rw [Path.same, beq_eq_false_iff_ne, ne_comm]
  rw [hsame]
  constructor
  · rintro ⟨front, back, heq, hback⟩
    rcases List.eq_nil_or_concat back with rfl | ⟨back, r, rfl⟩
    · obtain ⟨-, hlast⟩ := List.append_inj' heq rfl
      exact .inl (List.cons.inj hlast).1.symm
    · rw [List.concat_eq_append] at heq hback
      rw [← List.cons_append, ← List.append_assoc] at heq
      obtain ⟨hps, hlast⟩ := List.append_inj' heq rfl
      refine .inr ⟨⟨front, back, hps, fun q hq => hback q (List.mem_append_left _ hq)⟩, ?_⟩
      exact hback q (by simp [(List.cons.inj hlast).1])
  · rintro (rfl | ⟨⟨front, back, rfl, hback⟩, hne⟩)
    · exact ⟨ps, [], rfl, fun q hq => absurd hq List.not_mem_nil⟩
    · refine ⟨front, back ++ [q], by simp, fun r hr => ?_⟩
      rcases List.mem_append.1 hr with hr | hr
      · exact hback r hr
      · exact List.mem_singleton.1 hr ▸ hne

/-- The files of an index are the given paths, without those that are given again in this or another
spelling. -/
theorem mem_ofPaths_iff_lastGiven : p ∈ (ofPaths ps).paths ↔ LastGiven ps p := by
  induction ps using List.reverseRecOn with
  | nil => exact ⟨fun h => absurd h List.not_mem_nil, fun h => absurd h.mem List.not_mem_nil⟩
  | append_singleton ps q ih =>
    rw [ofPaths_append_singleton, mem_insertInto (ascending_ofPaths ps), lastGiven_concat, ih]

theorem exists_lastGiven (h : p ∈ ps) : ∃ q, LastGiven ps q ∧ q.components = p.components := by
  induction ps using List.reverseRecOn with
  | nil => cases h
  | append_singleton ps r ih =>
    by_cases hr : r.components = p.components
    · exact ⟨r, lastGiven_concat.2 (.inl rfl), hr⟩
    · have hp : p ∈ ps := by
        rcases List.mem_append.1 h with hp | hp
        · exact hp
        · exact absurd (List.mem_singleton.1 hp ▸ rfl) hr
      obtain ⟨q, hq, heq⟩ := ih hp
      refine ⟨q, lastGiven_concat.2 (.inr ⟨hq, ?_⟩), heq⟩
      rw [Path.same, beq_eq_false_iff_ne, heq]
      exact Ne.symm hr

theorem mem_ofPaths_iff (h : ∀ p ∈ ps, ∀ q ∈ ps, p.same q = true → p = q) :
    p ∈ (ofPaths ps).paths ↔ p ∈ ps := by
  rw [mem_ofPaths_iff_lastGiven]
  refine ⟨LastGiven.mem, fun hp => ?_⟩
  obtain ⟨q, hq, heq⟩ := exists_lastGiven hp
  exact h q hq.mem p hp (beq_iff_eq.2 heq) ▸ hq

-- ---------------------------------------------------------------------------
-- Places
-- ---------------------------------------------------------------------------

theorem insertInto_of_forall_lt (h : ∀ q ∈ qs, q.compare p = .lt) :
    insertInto p qs = qs ++ [p] := by
  induction qs with
  | nil => rfl
  | cons q qs ih =>
    obtain ⟨hq, hqs⟩ := List.forall_mem_cons.1 h
    rw [insertInto, Std.OrientedCmp.gt_iff_lt.2 hq]
    exact congrArg (q :: ·) (ih hqs)

theorem paths_ofPaths_of_ascending (h : Ascending qs) : (ofPaths qs).paths = qs := by
  induction qs using List.reverseRecOn with
  | nil => rfl
  | append_singleton qs q ih =>
    obtain ⟨hqs, -, hlt⟩ := List.pairwise_append.1 h
    rw [ofPaths_append_singleton, ih hqs]
    exact insertInto_of_forall_lt fun r hr => hlt r hr q (List.mem_singleton_self q)

/-- An index has one spelling of every place that is given, the one given last, and has them in the
order of their components. What it has is what makes it up. Components ignore repeated separators,
inner `.` parts and separators at the end, and nothing else. -/
theorem ofPaths_places (ps : List Path) :
    (ofPaths ps).paths.Pairwise Path.Precedes ∧
      (∀ p, p ∈ (ofPaths ps).paths ↔ LastGiven ps p) ∧
      (∀ p ∈ ps, ∃! q, q ∈ (ofPaths ps).paths ∧ q.components = p.components) ∧
      ofPaths (ofPaths ps).paths = ofPaths ps ∧
      ∀ p q : Path, p.components = q.components ↔ p.Respells q := by
  have hascending := ascending_ofPaths ps
  refine ⟨?_, fun p => mem_ofPaths_iff_lastGiven, fun p hp => ?_, ?_,
    fun p q => Path.components_eq_iff_respells⟩
  · exact hascending.imp Path.compare_eq_lt_iff.1
  · obtain ⟨q, hq, heq⟩ := exists_lastGiven hp
    refine ⟨q, ⟨mem_ofPaths_iff_lastGiven.2 hq, heq⟩, fun r ⟨hr, hrp⟩ => ?_⟩
    exact List.inj_on_of_nodup_map hascending.nodup_components hr (mem_ofPaths_iff_lastGiven.2 hq)
      (hrp.trans heq.symm)
  · exact congrArg FileIndex.mk (paths_ofPaths_of_ascending hascending)

end

def respelled : List Path :=
  [⟨"/r/./b.sv"⟩, ⟨"./c.v"⟩, ⟨"/r/b.sv"⟩, ⟨"/r//b.sv/"⟩]

theorem ofPaths_places_respelled :
    (ofPaths respelled).paths = [⟨"/r//b.sv/"⟩, ⟨"./c.v"⟩] ∧ ⟨"/r/b.sv"⟩ ∈ respelled ∧
      (∃! q, q ∈ (ofPaths respelled).paths ∧ q.components = (⟨"/r/b.sv"⟩ : Path).components) ∧
      LastGiven respelled ⟨"/r//b.sv/"⟩ ∧ (⟨"/r/./b.sv"⟩ : Path).Respells ⟨"/r//b.sv/"⟩ := by
  have hpaths : (ofPaths respelled).paths = [⟨"/r//b.sv/"⟩, ⟨"./c.v"⟩] := by decide +kernel
  have hmem : ⟨"/r/b.sv"⟩ ∈ respelled := by decide
  obtain ⟨-, hlast, hunique, -, hrespells⟩ := ofPaths_places respelled
  refine ⟨hpaths, hmem, hunique _ hmem, (hlast _).1 ?_, (hrespells _ _).1 (by decide +kernel)⟩
  rw [hpaths]
  exact List.mem_cons_self

end FileIndex

end DesignDeps
