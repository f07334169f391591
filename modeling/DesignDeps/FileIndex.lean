import DesignDeps.Path

/-!
# The index of known files

Candidate files in the order of their components. Of several spellings of one place the one given
last stays.
-/

namespace DesignDeps

open Text

structure FileIndex where
  paths : List Path
  deriving DecidableEq, Inhabited

namespace FileIndex

/-- Puts `p` at its place in an ascending list, over another spelling of it if there is one. -/
def insertInto (p : Path) : List Path → List Path
  | [] => [p]
  | q :: qs =>
    match p.compare q with
    | .lt => p :: q :: qs
    | .eq => p :: qs
    | .gt => q :: insertInto p qs

def ofPaths (paths : List Path) : FileIndex :=
  ⟨paths.foldl (fun qs p => insertInto p qs) []⟩

def size (index : FileIndex) : Nat := index.paths.length

def isEmpty (index : FileIndex) : Bool := index.paths.isEmpty

def matching (index : FileIndex) (token : String) : List Path :=
  index.paths.filter fun p => contains p.text token

theorem mem_matching {index : FileIndex} {token : String} {p : Path} :
    p ∈ index.matching token ↔ p ∈ index.paths ∧ token.toList <:+: p.text.toList := by
  simp [matching, contains_iff]

end FileIndex

end DesignDeps
