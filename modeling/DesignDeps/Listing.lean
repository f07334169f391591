import DesignDeps.Disk.Access
import DesignDeps.FileIndex
import DesignDeps.Log
import DesignDeps.SourceKind

/-!
# Finding candidate files

The source tree is searched from its root down, links to directories left alone, in ascending order
in every directory. What is pruned takes everything below it away, and so does a directory that
cannot be listed. Directories named in addition give all their files, of whatever kind and without
any pruning, but nothing below them.
-/

namespace DesignDeps

open Text

structure Lister where
  root : Path
  ignoreFile : String
  /-- Whatever has one of these in its absolute path is pruned; an empty one says nothing. -/
  ignoreDirs : List String
  extraDirs : List Path
  deriving DecidableEq, Inhabited

namespace Lister

/-- What the search comes across. -/
inductive Visit
  | kept (loc : Location)
  | noted (event : Log.Event)

def matchedPattern? (l : Lister) (p : Path) : Option String :=
  l.ignoreDirs.find? fun pattern => pattern != "" && contains p.text pattern

def isMarked (l : Lister) (d : Disk) (p : Path) : Bool :=
  d.exists? (p.join ⟨l.ignoreFile⟩)

def pruning? (l : Lister) (d : Disk) (loc : Location) : Option Log.Event :=
  match l.matchedPattern? loc.path with
  | some pattern => some (.prunedByPattern loc.path pattern)
  | none =>
    if d.get? loc = some .dir && l.isMarked d loc.path then some (.prunedByMarker loc.path)
    else none

/-- Everything met from a location down. A directory that cannot be listed is met, and no more. -/
def visits (l : Lister) (d : Disk) (unlisted : List Location) (loc : Location) : List Visit :=
  match l.pruning? d loc with
  | some event => [.noted event]
  | none =>
    .kept loc ::
      if d.get? loc = some .dir then
        match d.readDir loc.path unlisted with
        | .error e => [.noted (.skipped loc.path e)]
        | .ok _ =>
          (d.children loc).attach.flatMap fun name => l.visits d unlisted (loc ++ [name.val])
      else []
termination_by d.depth - loc.length
decreasing_by exact Disk.depth_sub_lt name.property

theorem visits_eq (l : Lister) (d : Disk) (unlisted : List Location) (loc : Location) :
    l.visits d unlisted loc =
      match l.pruning? d loc with
      | some event => [.noted event]
      | none =>
        .kept loc ::
          if d.get? loc = some .dir then
            match d.readDir loc.path unlisted with
            | .error e => [.noted (.skipped loc.path e)]
            | .ok _ => (d.children loc).flatMap fun name => l.visits d unlisted (loc ++ [name])
          else [] := by
  rw [visits]
  split
  · rfl
  · have h : ((d.children loc).attach.flatMap fun name =>
          l.visits d unlisted (loc ++ [name.val])) =
        (d.children loc).flatMap fun name => l.visits d unlisted (loc ++ [name]) := by
      conv => rhs; rw [← List.attach_map_subtype_val (d.children loc), List.flatMap_map]
    rw [h]

def Visit.loc? : Visit → Option Location
  | .kept loc => some loc
  | .noted _ => none

def Visit.event? : Visit → Option Log.Event
  | .kept _ => none
  | .noted event => some event

/-- A file, or a link that leads to one. What a location holds is seen in its directory, and only a
link is looked at through its path. -/
def holdsFile (d : Disk) (loc : Location) : Bool :=
  match d.get? loc with
  | some (.file ..) => true
  | some (.link _) => d.isFile loc.path
  | _ => false

def treeFiles (d : Disk) (visits : List Visit) : List Path :=
  ((visits.filterMap Visit.loc?).filter fun loc =>
    holdsFile d loc && (SourceKind.ofPath loc.path).isHdl).map Location.path

def extraFiles (d : Disk) (unlisted : List Location) (dir : Path) : Except Error (List Path) :=
  match d.canonical dir with
  | .error e => .error (.io dir e)
  | .ok dir =>
    match d.readDir dir unlisted with
    | .error e => .error (.io dir e)
    | .ok entries => .ok (entries.filter d.isFile)

def search (l : Lister) (d : Disk) (unlisted : List Location) (root : Location) : List Visit :=
  match d.reach .keepLink root.path with
  | .error e => [.noted (.skipped root.path e)]
  | .ok _ => l.visits d unlisted root

/-- The index of all candidates, and what is reported on the way. -/
def list (l : Lister) (d : Disk) (unlisted : List Location := []) :
    Except Error FileIndex × List Log.Event :=
  match d.locate .follow l.root with
  | .error e => (.error (.io l.root e), [])
  | .ok root =>
    let visits := l.search d unlisted root
    let noted := visits.filterMap Visit.event?
    match l.extraDirs.mapM (extraFiles d unlisted) with
    | .error e => (.error e, noted)
    | .ok extra =>
      let index := FileIndex.ofPaths (treeFiles d visits ++ extra.flatten)
      (.ok index, noted ++ [.indexed index.size root.path])

end Lister

end DesignDeps
