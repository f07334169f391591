import DesignDeps.Proofs.Disk.FileNames
import DesignDeps.Proofs.Disk.Flat
import DesignDeps.Proofs.Extraction
import DesignDeps.Proofs.Walk.Sources

/-!
# Fragments in the output directory

Names without a separator and variants without a dot give every fragment a place of its own in the
output directory. A disk is `Tidy` when the fragments of such names are files there and no source is
among them. An empty output directory is tidy, and stays tidy under every fragment that is written
to it; the laws of reading and writing fragments hold on tidy disks.
-/

namespace DesignDeps

namespace Writer

open Text Walk

/-- The name is no path. -/
def SlashFree (name : String) : Prop :=
  '/' ∉ name.toList

instance (name : String) : Decidable (SlashFree name) :=
  inferInstanceAs (Decidable ('/' ∉ name.toList))

/-- Variants are neither paths nor mistaken for a part of the name in front of them. -/
def PlainVariants (w : Writer) : Prop :=
  ∀ v ∈ w.variants, '.' ∉ v.toList ∧ '/' ∉ v.toList

theorem confined_lexical {w : Writer} (h : w.extractor = .lexical) : w.Confined SlashFree := by
  intro path module text n hn _ hslash
  unfold namesIn at hn
  split at hn
  · rw [h] at hn
    exact (Dependencies.isNameChar_of_mem_all hn '/' hslash).ne (by decide) (by decide) rfl
  · simp at hn

-- ---------------------------------------------------------------------------
-- Names of fragments
-- ---------------------------------------------------------------------------

theorem append_cut_inj {α : Type} {c : α} {a b a' b' : List α} (h : a ++ c :: b = a' ++ c :: b')
    (hb : c ∉ b) (hb' : c ∉ b') : a = a' ∧ b = b' := by
  rcases List.append_eq_append_iff.1 h with ⟨s, rfl, hs⟩ | ⟨s, rfl, hs⟩
  · cases s with
    | nil => simpa using hs
    | cons x s =>
      have hmem : c ∈ b := by
        simp only [List.cons_append, List.cons.injEq] at hs
        simp [hs.2]
      exact absurd hmem hb
  · cases s with
    | nil => simpa [eq_comm] using hs
    | cons x s =>
      have hmem : c ∈ b' := by
        simp only [List.cons_append, List.cons.injEq] at hs
        simp [hs.2]
      exact absurd hmem hb'

theorem fragmentName_inj {m v m' v' : String} (hv : '.' ∉ v.toList) (hv' : '.' ∉ v'.toList)
    (h : m ++ "." ++ v ++ ".d" = m' ++ "." ++ v' ++ ".d") : m = m' ∧ v = v' := by
  have hlist : m.toList ++ '.' :: v.toList = m'.toList ++ '.' :: v'.toList := by
    refine List.append_cancel_right (?_ : _ ++ ['.', 'd'] = _)
    simpa using congrArg String.toList h
  obtain ⟨hm, hv⟩ := append_cut_inj hlist hv hv'
  exact ⟨String.toList_inj.1 hm, String.toList_inj.1 hv⟩

theorem segment_fragmentName {m v : String} (hm : SlashFree m) (hv : '/' ∉ v.toList) :
    Disk.Segment (m ++ "." ++ v ++ ".d") := by
  have hlist : (m ++ "." ++ v ++ ".d").toList = m.toList ++ '.' :: v.toList ++ ['.', 'd'] := by
    simp
  have hne : ∀ s : String, s.toList.getLast? ≠ some 'd' → m ++ "." ++ v ++ ".d" ≠ s := by
    rintro s hs rfl
    rw [hlist, List.getLast?_append_of_ne_nil _ (by simp)] at hs
    exact hs rfl
  refine ⟨hne _ (by decide), hne _ (by decide), hne _ (by decide), ?_⟩
  rw [hlist]
  simpa using ⟨hm, hv⟩

theorem ofPath_of_fileName {p : Path} {m v : String}
    (h : p.fileName? = some (m ++ "." ++ v ++ ".d")) : SourceKind.ofPath p = .other := by
  have hcut : m ++ "." ++ v ++ ".d" = String.ofList (m.toList ++ '.' :: v.toList ++ '.' :: ['d']) :=
    String.toList_inj.1 (by simp)
  have hext := Path.extension?_of_fileName (by simp) (by decide) (h.trans (congrArg some hcut))
  simp [SourceKind.ofPath, hext]
  decide

theorem ofPath_fragmentPath {w : Writer} {m v : String} (hm : SlashFree m) (hv : '/' ∉ v.toList) :
    SourceKind.ofPath (w.fragmentPath m v) = .other :=
  ofPath_of_fileName (Path.fileName?_join (segment_fragmentName hm hv))

-- ---------------------------------------------------------------------------
-- Tidy disks
-- ---------------------------------------------------------------------------

/-- The output directory is there, with nothing in it. -/
def EmptyOutput (w : Writer) (d : Disk) : Prop :=
  ∃ o, d.Enters w.outDir o ∧ ∀ name, d.get? (o ++ [name]) = none

/-- Fragments of different modules or variants have different places. -/
def Separate (w : Writer) (d : Disk) : Prop :=
  ∀ m v m' v' l, SlashFree m → v ∈ w.variants → SlashFree m' → v' ∈ w.variants →
    d.reach .create (w.fragmentPath m v) = .ok l →
    d.reach .create (w.fragmentPath m' v') = .ok l → m = m' ∧ v = v'

structure Tidy (w : Writer) (d : Disk) : Prop where
  grounded : d.Grounded
  entered : ∃ o, d.Enters w.outDir o
  apart : w.Apart SlashFree d
  separate : ∀ {m v m' v' l}, SlashFree m → v ∈ w.variants → SlashFree m' → v' ∈ w.variants →
    d.reach .create (w.fragmentPath m v) = .ok l →
    d.reach .create (w.fragmentPath m' v') = .ok l → m = m' ∧ v = v'
  regular : ∀ {m v}, SlashFree m → v ∈ w.variants →
    d.exists? (w.fragmentPath m v) = true → ∃ bytes, d.read (w.fragmentPath m v) = .ok bytes

section
variable {w : Writer} {d d' : Disk} {m v m' v' : String}

theorem EmptyOutput.exists?_eq (h : w.EmptyOutput d) (hw : w.PlainVariants) (hm : SlashFree m)
    (hv : v ∈ w.variants) : d.exists? (w.fragmentPath m v) = false := by
  obtain ⟨o, ho, hfree⟩ := h
  exact Disk.exists?_join ho (segment_fragmentName hm (hw v hv).2) (hfree _)

theorem EmptyOutput.separate (h : w.EmptyOutput d) (hw : w.PlainVariants) : w.Separate d := by
  obtain ⟨o, ho, hfree⟩ := h
  intro m v m' v' l hm hv hm' hv' hl hl'
  obtain ⟨-, rfl⟩ := Disk.places_join ho (segment_fragmentName hm (hw v hv).2) (hfree _) hl
  obtain ⟨-, hname⟩ := Disk.places_join ho (segment_fragmentName hm' (hw v' hv').2) (hfree _) hl'
  exact fragmentName_inj (hw v hv).1 (hw v' hv').1 (by simpa using hname)

theorem separate_of_linkFree (h : d.LinkFree w.outDir) (hw : w.PlainVariants) : w.Separate d := by
  intro m v m' v' l hm hv hm' hv' hl hl'
  exact fragmentName_inj (hw v hv).1 (hw v' hv').1
    (h.place_inj (segment_fragmentName hm (hw v hv).2) (segment_fragmentName hm' (hw v' hv').2)
      hl hl')

theorem EmptyOutput.tidy (h : w.EmptyOutput d) (hw : w.PlainVariants) (hd : d.Grounded)
    (ha : w.Apart SlashFree d) : w.Tidy d := by
  refine ⟨hd, ?_, ha, @fun m v m' v' l => h.separate hw m v m' v' l, @fun m v hm hv hexists => ?_⟩
  · obtain ⟨o, ho, -⟩ := h
    exact ⟨o, ho⟩
  · simp [h.exists?_eq hw hm hv] at hexists

theorem Tidy.places (h : w.Tidy d) : w.Separate d :=
  fun _ _ _ _ _ hm hv hm' hv' => h.separate hm hv hm' hv'

theorem Separate.of_addsFiles (h : w.Separate d) (hadds : d.AddsFiles d') : w.Separate d' := by
  intro m v m' v' l hm hv hm' hv' hl hl'
  rw [hadds.reach_create] at hl hl'
  exact h m v m' v' l hm hv hm' hv' hl hl'

theorem Tidy.prepared_eq (h : w.Tidy d) : w.prepared d = d :=
  h.entered.choose_spec.makeDirs_disk

theorem Tidy.of_alike (h : w.Tidy d) (halike : w.Alike d d') : w.Tidy d' := by
  refine ⟨halike.grows.grounded h.grounded, ?_, halike.apart h.apart, ?_, ?_⟩
  · obtain ⟨o, ho⟩ := h.entered
    exact ⟨o, ho.grows halike.grows⟩
  · exact @fun m v m' v' l => h.places.of_addsFiles halike.adds m v m' v' l
  · intro m v hm hv hexists
    rcases halike.adds.exists? hexists with hread | hexists
    · exact hread
    · obtain ⟨bytes, hread⟩ := h.regular hm hv hexists
      exact halike.grows.read hread

-- ---------------------------------------------------------------------------
-- All fragments of a module
-- ---------------------------------------------------------------------------

variable {path : Path} {kept variants : List String}

theorem Writes.sameAt (h : w.Writes m path kept variants d d') (hd : d.Grounded) {q : Path}
    (hq : ∀ v ∈ variants, ∀ l, d.reach .create (w.fragmentPath m v) = .ok l →
      d.reach .create q ≠ .ok l) : d.SameAt d' q := by
  induction h with
  | nil => exact .refl _ _
  | cons hwrite _ ih =>
    have hadds := hwrite.adds hd
    refine (hwrite.sameAt hd (hq _ List.mem_cons_self)).trans
      (ih (hadds.grows.grounded hd) fun v hv l hl => ?_)
    rw [hadds.reach_create] at hl
    rw [ne_eq, hadds.reach_create]
    exact hq v (List.mem_cons_of_mem _ hv) l hl

theorem Writes.sameAt_other (h : w.Writes m path kept variants d d') (hd : d.Grounded)
    (hs : w.Separate d) (hm : SlashFree m) (hv : variants ⊆ w.variants) (hm' : SlashFree m')
    (hv' : v' ∈ w.variants) (hne : ¬(m = m' ∧ v' ∈ variants)) :
    d.SameAt d' (w.fragmentPath m' v') := by
  refine h.sameAt hd fun v hmem l hl hl' => ?_
  obtain ⟨rfl, rfl⟩ := hs m v m' v' l hm (hv hmem) hm' hv' hl hl'
  exact hne ⟨rfl, hmem⟩

theorem Writes.read_self (h : w.Writes m path kept variants d d') (hd : d.Grounded)
    (hs : w.Separate d) (hm : SlashFree m) (hvs : variants ⊆ w.variants) (hv : v ∈ variants) :
    d'.read (w.fragmentPath m v) = .ok (contentOf m path kept v) := by
  induction h with
  | nil => cases hv
  | @cons variant variants _ _ _ hwrite hrest ih =>
    obtain ⟨hw, hws⟩ := List.cons_subset.1 hvs
    have hadds := hwrite.adds hd
    have hd₁ := hadds.grows.grounded hd
    have hs₁ := hs.of_addsFiles hadds
    by_cases hmem : v ∈ variants
    · exact ih hd₁ hs₁ hws hmem
    · obtain rfl : v = variant := (List.mem_cons.1 hv).resolve_right hmem
      rw [(hrest.sameAt_other hd₁ hs₁ hm hws hm hw fun h => hmem h.2).read]
      exact Disk.read_iff_entry.2 ⟨_, hwrite.entry?_self hd⟩

end

end Writer

end DesignDeps
