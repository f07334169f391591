import DesignDeps.Listing
import DesignDeps.Proofs.Disk.Files

/-!
# Listing source trees

What a listing can fail on (`isIo_of_list`), and what it finds in a source tree of one level
(`list_of_level`).
-/

namespace DesignDeps

/-- The failure is one of the file system. -/
def Error.IsIo (e : Error) : Prop :=
  ∃ path cause, e = .io path cause

namespace Lister

section
variable {l : Lister} {d : Disk} {unlisted : List Location} {e : Error}

-- ---------------------------------------------------------------------------
-- Failures
-- ---------------------------------------------------------------------------

theorem isIo_of_extraFiles {dir : Path} (h : extraFiles d unlisted dir = .error e) : e.IsIo := by
  unfold extraFiles at h
  split at h
  · cases h
    exact ⟨_, _, rfl⟩
  · split at h
    · cases h
      exact ⟨_, _, rfl⟩
    · cases h

theorem isIo_of_mapM {dirs : List Path} (h : dirs.mapM (extraFiles d unlisted) = .error e) :
    e.IsIo := by
  induction dirs with
  | nil => cases h
  | cons dir dirs ih =>
    rw [List.mapM_cons] at h
    cases hdir : extraFiles d unlisted dir with
    | error =>
      rw [hdir] at h
      cases h
      exact isIo_of_extraFiles hdir
    | ok =>
      rw [hdir] at h
      cases hdirs : dirs.mapM (extraFiles d unlisted) with
      | error =>
        rw [hdirs] at h
        cases h
        exact ih hdirs
      | ok =>
        rw [hdirs] at h
        cases h

theorem isIo_of_list (h : (l.list d unlisted).1 = .error e) : e.IsIo := by
  unfold list at h
  split at h
  · cases h
    exact ⟨_, _, rfl⟩
  · dsimp only at h
    split at h
    · next hdirs =>
      cases h
      exact isIo_of_mapM hdirs
    · cases h

-- ---------------------------------------------------------------------------
-- Trees of one level
-- ---------------------------------------------------------------------------

variable {loc : Location} {name : String}

theorem pruning?_of_entry (hdirs : l.ignoreDirs = []) (h : d.get? loc ≠ some .dir) :
    l.pruning? d loc = none := by
  simp [pruning?, matchedPattern?, hdirs, h]

theorem visits_of_entry (hdirs : l.ignoreDirs = []) (h : d.get? loc ≠ some .dir) :
    l.visits d unlisted loc = [.kept loc] := by
  rw [visits_eq, pruning?_of_entry hdirs h]
  simp [h]

theorem visits_of_level {entries : List Path} (hdirs : l.ignoreDirs = [])
    (hdir : d.get? loc = some .dir) (hmark : l.isMarked d loc.path = false)
    (hread : d.readDir loc.path unlisted = .ok entries)
    (hlevel : ∀ name ∈ d.children loc, d.get? (loc ++ [name]) ≠ some .dir) :
    l.visits d unlisted loc =
      .kept loc :: (d.children loc).map fun name => .kept (loc ++ [name]) := by
  have hprune : l.pruning? d loc = none := by
    simp [pruning?, matchedPattern?, hdirs, hmark]
  rw [visits_eq, hprune]
  simp only [hdir, if_true, hread, List.cons.injEq, true_and]
  rw [List.map_eq_flatMap]
  exact List.flatMap_congr fun name hname => visits_of_entry hdirs (hlevel name hname)

theorem list_of_level {entries : List Path}
    (hroot : d.locate .follow l.root = .ok loc) (hdirs : l.ignoreDirs = [])
    (hextra : l.extraDirs = []) (hdir : d.get? loc = some .dir)
    (hmark : l.isMarked d loc.path = false)
    (hread : d.readDir loc.path unlisted = .ok entries)
    (hlevel : ∀ name ∈ d.children loc, d.get? (loc ++ [name]) ≠ some .dir) :
    (l.list d unlisted).1 = .ok (.ofPaths <|
      ((loc :: (d.children loc).map fun name => loc ++ [name]).filter fun loc =>
        holdsFile d loc && (SourceKind.ofPath loc.path).isHdl).map Location.path) := by
  have hfiles : (l.extraDirs.mapM (extraFiles d unlisted)) = .ok [] := by
    rw [hextra]
    rfl
  have hvisits := visits_of_level hdirs hdir hmark hread hlevel
  obtain ⟨_, hfollow, -⟩ := Disk.readDir_eq_ok_iff.1 hread
  obtain ⟨_, hreach⟩ := Disk.reach_keepLink hfollow
  unfold list search
  simp only [hroot, hreach, hfiles, hvisits, treeFiles]
  simp [Visit.loc?, List.filterMap_map, Function.comp_def]

end

end Lister

end DesignDeps
