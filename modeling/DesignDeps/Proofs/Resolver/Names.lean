import DesignDeps.Proofs.Disk.Directory
import DesignDeps.Proofs.Path.Spelling
import DesignDeps.Proofs.Resolver
import Mathlib.Data.List.Infix

/-!
# Names and base names

A name is searched for in whole paths, so it is found wherever a piece behind a separator begins
with it (`carries_iff`): in the base name that is meant, but also in a directory and in a base name
that goes on behind the name. Those paths stray. The file that a name leads to has the name exactly
when every path that strays comes behind one that does not (`resolve_named`).
-/

namespace DesignDeps

open Text

-- ---------------------------------------------------------------------------
-- Pieces of paths
-- ---------------------------------------------------------------------------

namespace Path

/-- Behind the first component stand the pieces behind the first separator, without those that name
nothing. -/
theorem components_tail (p : Path) : p.components.tail =
    ((pieces '/' p.text.toList).tail.filter (!isIdle ·)).map Component.ofPiece := by
  obtain ⟨first, rest, hp⟩ := exists_pieces p.text.toList
  rw [components_of_pieces hp, hp, List.tail_cons]
  unfold Component.ofFirst
  split_ifs with hempty honly
  · simp [List.isEmpty_iff.1 honly]
  all_goals rfl

end Path

-- ---------------------------------------------------------------------------
-- Where a name is found
-- ---------------------------------------------------------------------------

def opening (name : String) : List Char :=
  if contains name "." then name.toList else name.toList ++ ['.']

def NamedAfter (file name : String) : Prop :=
  if contains name "." then file = name else ∃ rest, file = name ++ "." ++ rest

theorem namedAfter_iff {file name : String} : NamedAfter file name ↔
    if contains name "." then file = name else name.toList ++ ['.'] <+: file.toList := by
  unfold NamedAfter
  split
  · rfl
  · constructor
    · rintro ⟨rest, rfl⟩
      exact ⟨rest.toList, by simp⟩
    · rintro ⟨rest, hrest⟩
      exact ⟨String.ofList rest, by simp [← String.toList_inj, ← hrest]⟩

instance {file name : String} : Decidable (NamedAfter file name) :=
  decidable_of_iff' _ namedAfter_iff

theorem toList_matchToken (name : String) : (matchToken name).toList = '/' :: opening name := by
  unfold matchToken opening
  split <;> simp

section
variable {name : String} {part : List Char}

theorem opening_prefix_iff {file : String} : opening name <+: file.toList ↔
    NamedAfter file name ∨
      contains name "." = true ∧ name.toList <+: file.toList ∧ file ≠ name := by
  rw [namedAfter_iff, opening]
  split
  · next hdotted =>
    by_cases heq : file = name <;> simp [heq, hdotted]
  · next hplain => simp [hplain]

theorem not_mem_opening (h : '/' ∉ name.toList) : '/' ∉ opening name := by
  unfold opening
  split <;> simpa

theorem not_contains_iff : contains name "." = false ↔ '.' ∉ name.toList := by
  rw [Bool.eq_false_iff, ne_eq, contains_iff]
  exact not_congr (List.singleton_infix_iff _ _)

theorem not_opening_prefix_dots (h : Disk.Segment name) : ¬opening name <+: ['.', '.'] := by
  intro hprefix
  unfold opening at hprefix
  split at hprefix
  · simp only [List.prefix_cons_iff, List.prefix_nil] at hprefix
    rcases hprefix with hname | ⟨_, hname, rfl | ⟨_, rfl, rfl⟩⟩
    · exact h.nonempty (String.toList_eq_nil_iff.1 hname)
    · exact h.notHere (String.toList_inj.1 hname)
    · exact h.notUp (String.toList_inj.1 hname)
  · next hcontains =>
    have hdot : '.' ∉ name.toList := not_contains_iff.1 (Bool.eq_false_iff.2 hcontains)
    obtain ⟨c, cs, hname⟩ :=
      List.exists_cons_of_ne_nil (mt String.toList_eq_nil_iff.1 h.nonempty)
    have hc : c = '.' := by
      simpa using hprefix.subset (a := c) (by simp [hname])
    exact hdot (by simp [hname, hc])

theorem component_of_opening_prefix (h : Disk.Segment name) (hpart : opening name <+: part) :
    Path.isIdle part = false ∧ Path.Component.ofPiece part = .name (String.ofList part) := by
  have hdots {s : List Char} (hs : s <+: ['.', '.']) : part ≠ s := fun heq =>
    not_opening_prefix_dots h (hpart.trans (heq ▸ hs))
  constructor
  · simp [Path.isIdle, hdots (s := []), hdots (s := ['.'])]
  · simp [Path.Component.ofPiece, hdots List.prefix_rfl]

end

namespace Path

variable {p : Path} {name : String}

/-- The name is found in the path: a piece behind a separator begins with it. -/
def Carries (p : Path) (name : String) : Prop :=
  ∃ part ∈ (pieces '/' p.text.toList).tail, opening name <+: part

/-- The path has a base name, and that is the name or the name with an extension. -/
def IsNamed (p : Path) (name : String) : Prop :=
  ∃ file, p.fileName? = some file ∧ NamedAfter file name

instance : Decidable (p.IsNamed name) :=
  decidable_of_iff (∃ file ∈ p.fileName?, NamedAfter file name) Iff.rfl

instance : Decidable (p.Carries name) :=
  inferInstanceAs (Decidable (∃ part ∈ (pieces '/' p.text.toList).tail, opening name <+: part))

/-- A component is found that is not a base name of that name: it is a directory, or a base name
that goes on behind a name with an extension. -/
inductive Strays (p : Path) (name : String) : Prop
  | dir (dir : String) (mem : .name dir ∈ p.components.tail.dropLast)
    (begins : opening name <+: dir.toList)
  | longer (file : String) (last : p.components.tail.getLast? = some (.name file))
    (dotted : contains name "." = true) (begins : name.toList <+: file.toList) (ne : file ≠ name)

theorem carries_iff_infix (h : '/' ∉ name.toList) :
    p.Carries name ↔ (matchToken name).toList <:+: p.text.toList := by
  rw [toList_matchToken, cons_infix_iff (not_mem_opening h), Carries]

theorem carries_iff_component (h : Disk.Segment name) : p.Carries name ↔
    ∃ part, .name part ∈ p.components.tail ∧ opening name <+: part.toList := by
  rw [components_tail]
  constructor
  · rintro ⟨part, hpart, hopening⟩
    obtain ⟨hidle, hname⟩ := component_of_opening_prefix h hopening
    refine ⟨String.ofList part, List.mem_map.2 ⟨part, ?_, hname⟩, by simpa⟩
    exact List.mem_filter.2 ⟨hpart, by simp [hidle]⟩
  · rintro ⟨part, hpart, hopening⟩
    obtain ⟨piece, hpiece, hname⟩ := List.mem_map.1 hpart
    unfold Component.ofPiece at hname
    split at hname
    · cases hname
    · cases hname
      exact ⟨piece, (List.mem_filter.1 hpiece).1, by simpa using hopening⟩

theorem fileName?_eq_some_iff {file : String} (hne : p.components.tail ≠ []) :
    p.fileName? = some file ↔ p.components.tail.getLast? = some (.name file) := by
  unfold fileName?
  cases hp : p.components with
  | nil => simp [hp] at hne
  | cons c cs =>
    rw [hp, List.tail_cons] at hne
    rw [List.tail_cons, List.getLast?_cons_of_ne_nil hne]
    split <;> simp_all

theorem carries_iff (h : Disk.Segment name) :
    p.Carries name ↔ p.Strays name ∨ p.components.tail ≠ [] ∧ p.IsNamed name := by
  rw [carries_iff_component h]
  constructor
  · rintro ⟨part, hmem, hopening⟩
    have hne : p.components.tail ≠ [] := List.ne_nil_of_mem hmem
    rw [← List.dropLast_append_getLast hne, List.mem_append, List.mem_singleton] at hmem
    rcases hmem with hmem | hlast
    · exact .inl (.dir part hmem hopening)
    · have hlast : p.components.tail.getLast? = some (.name part) := by
        rw [List.getLast?_eq_some_getLast hne, ← hlast]
      rcases opening_prefix_iff.1 hopening with hnamed | ⟨hdotted, hprefix, hother⟩
      · exact .inr ⟨hne, part, (fileName?_eq_some_iff hne).2 hlast, hnamed⟩
      · exact .inl (.longer part hlast hdotted hprefix hother)
  · rintro (hstrays | ⟨hne, file, hfile, hnamed⟩)
    · cases hstrays with
      | dir dir hmem hopening => exact ⟨dir, List.mem_of_mem_dropLast hmem, hopening⟩
      | longer file hlast hdotted hprefix hother =>
        exact ⟨file, List.mem_of_getLast? hlast,
          opening_prefix_iff.2 (.inr ⟨hdotted, hprefix, hother⟩)⟩
    · exact ⟨file, List.mem_of_getLast? ((fileName?_eq_some_iff hne).1 hfile),
        opening_prefix_iff.2 (.inl hnamed)⟩

end Path

-- ---------------------------------------------------------------------------
-- What a name leads to
-- ---------------------------------------------------------------------------

namespace Resolver

variable {r : Resolver} {name : String} {p : Path}

theorem resolve_eq_found_iff_carries (hslash : '/' ∉ name.toList)
    (hget : r.overrides.get? name = none) :
    r.resolve name = .found p ↔ p ∈ r.index.paths ∧ p.Carries name ∧
      ∀ q ∈ r.index.paths, q.Carries name → p = q ∨ p.Before q := by
  simp only [resolve_eq_found_iff hget, Path.carries_iff_infix hslash]
  exact ⟨fun h => ⟨h.mem, h.contains, h.first⟩, fun ⟨hmem, hcontains, hfirst⟩ =>
    ⟨hmem, hcontains, hfirst⟩⟩

/-- Names without an override lead to files of the name exactly when each other path in which the
name is found comes behind one of such a file. -/
theorem resolve_named (hslash : '/' ∉ name.toList) (hget : r.overrides.get? name = none) :
    (∀ p, r.resolve name = .found p → p ∈ r.index.paths ∧ p.Carries name) ∧
    ((∀ p, r.resolve name = .found p → p.IsNamed name) ↔
      ∀ p ∈ r.index.paths, p.Carries name → p.IsNamed name ∨
        ∃ q ∈ r.index.paths, q.Carries name ∧ q.IsNamed name ∧ q.Before p) ∧
    (Disk.Segment name → ∀ p : Path,
      p.Carries name ↔ p.Strays name ∨ p.components.tail ≠ [] ∧ p.IsNamed name) := by
  have hfound {p : Path} := resolve_eq_found_iff_carries (p := p) hslash hget
  refine ⟨fun p hp => ?_, ⟨fun hnamed p hp hcarries => ?_, fun hnamed p hp => ?_⟩,
    fun hsegment p => Path.carries_iff hsegment⟩
  · obtain ⟨hmem, hcarries, -⟩ := hfound.1 hp
    exact ⟨hmem, hcarries⟩
  · obtain ⟨first, hfirst⟩ := exists_found hget ⟨p, hp, (Path.carries_iff_infix hslash).1 hcarries⟩
    obtain ⟨hmem, hcarries', hbefore⟩ := hfound.1 hfirst
    rcases hbefore p hp hcarries with rfl | hbefore
    · exact .inl (hnamed _ hfirst)
    · exact .inr ⟨first, hmem, hcarries', hnamed first hfirst, hbefore⟩
  · obtain ⟨hmem, hcarries, hbefore⟩ := hfound.1 hp
    rcases hnamed p hmem hcarries with hnamed | ⟨q, hq, hqcarries, hqnamed, hqbefore⟩
    · exact hnamed
    · rcases hbefore q hq hqcarries with rfl | hafter
      · exact hqnamed
      · exact absurd hqbefore hafter.asymm

def sheltered : Resolver :=
  ⟨.ofPaths [⟨"/s/fifo.d/top.sv"⟩, ⟨"/s/fifo.sv"⟩], ∅⟩

theorem resolve_named_sheltered :
    '/' ∉ "fifo".toList ∧ sheltered.overrides.get? "fifo" = none ∧ Disk.Segment "fifo" ∧
      (∃ p ∈ sheltered.index.paths, p.Strays "fifo" ∧ p.Carries "fifo") ∧
      sheltered.resolve "fifo" = .found ⟨"/s/fifo.sv"⟩ ∧
      ∀ p, sheltered.resolve "fifo" = .found p → p.IsNamed "fifo" := by
  have hslash : '/' ∉ "fifo".toList := by decide +kernel
  have hget : sheltered.overrides.get? "fifo" = none := rfl
  have hsegment : Disk.Segment "fifo" := ⟨by decide, by decide, by decide, hslash⟩
  have hpaths : sheltered.index.paths = [⟨"/s/fifo.d/top.sv"⟩, ⟨"/s/fifo.sv"⟩] := by
    decide +kernel
  have hbefore : Path.Before ⟨"/s/fifo.sv"⟩ ⟨"/s/fifo.d/top.sv"⟩ :=
    Path.preferred_iff.1 (by decide +kernel)
  have hstrays : Path.Strays ⟨"/s/fifo.d/top.sv"⟩ "fifo" :=
    .dir "fifo.d" (by decide +kernel) (by decide +kernel)
  obtain ⟨-, hnamed, hcarries⟩ := resolve_named hslash hget
  refine ⟨hslash, hget, hsegment,
    ⟨_, by simp [hpaths], hstrays, (hcarries hsegment _).2 (.inl hstrays)⟩, by decide +kernel,
    hnamed.2 fun p hp _ => ?_⟩
  rw [hpaths, List.mem_cons, List.mem_singleton] at hp
  rcases hp with rfl | rfl
  · exact .inr ⟨⟨"/s/fifo.sv"⟩, by simp [hpaths], by decide +kernel, by decide +kernel, hbefore⟩
  · exact .inl (by decide +kernel)

def strayed : Resolver :=
  ⟨.ofPaths [⟨"/s/fifo.d/top.sv"⟩, ⟨"/s/vendor/fifo.sv"⟩, ⟨"/s/defs.svh.v"⟩], ∅⟩

theorem directory_found :
    (strayed.overrides.get? "fifo" = none ∧
      strayed.resolve "fifo" = .found ⟨"/s/fifo.d/top.sv"⟩ ∧
      ¬Path.IsNamed ⟨"/s/fifo.d/top.sv"⟩ "fifo") ∧
    strayed.overrides.get? "defs.svh" = none ∧
      strayed.resolve "defs.svh" = .found ⟨"/s/defs.svh.v"⟩ ∧
      ¬Path.IsNamed ⟨"/s/defs.svh.v"⟩ "defs.svh" := by
  decide +kernel

end Resolver

end DesignDeps
