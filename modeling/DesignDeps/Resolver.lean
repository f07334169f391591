import DesignDeps.FileIndex
import DesignDeps.Log
import DesignDeps.Override.Table

/-!
# From module names to files

An override decides wherever there is one. Otherwise a name is searched for in the index by
convention: `fifo` is found in `…/fifo.sv` and not in `…/fifo_ctrl.sv`, while `defs.svh` is taken
literally. Of several candidates the shortest path is used.
-/

namespace DesignDeps

open Text

inductive Resolution
  | found (path : Path)
  | excluded
  | unresolved
  deriving DecidableEq, Inhabited

def Resolution.path? : Resolution → Option Path
  | .found path => some path
  | .excluded | .unresolved => none

/-- What a matching path has to contain. A name without a dot gets one behind it, so that it ends
where the base name ends. -/
def matchToken (name : String) : String :=
  if contains name "." then "/" ++ name else "/" ++ name ++ "."

/-- The most preferred path, the first of equals. -/
def bestOf : List Path → Option Path
  | [] => none
  | p :: ps =>
    match bestOf ps with
    | none => some p
    | some q => if q.preferred p then some q else some p

structure Resolver where
  index : FileIndex
  overrides : Override.Table

namespace Resolver

def candidates (r : Resolver) (name : String) : List Path :=
  r.index.matching (matchToken name)

def resolve (r : Resolver) (name : String) : Resolution :=
  match r.overrides.get? name with
  | some (.file path) => .found path
  | some .excluded => .excluded
  | none =>
    match bestOf (r.candidates name) with
    | some path => .found path
    | none => .unresolved

/-- What is reported when `name` is resolved. -/
def events (r : Resolver) (name : String) : List Log.Event :=
  if r.overrides.contains name then [.overrideUsed name]
  else
    let candidates := r.candidates name
    if candidates.length > 1 then [.ambiguous name candidates] else []

end Resolver

theorem bestOf_eq_none_iff {ps : List Path} : bestOf ps = none ↔ ps = [] := by
  cases ps with
  | nil => simp [bestOf]
  | cons p ps =>
    unfold bestOf
    split
    · simp
    · split <;> simp

theorem mem_of_bestOf {ps : List Path} {p : Path} (h : bestOf ps = some p) : p ∈ ps := by
  induction ps with
  | nil => simp [bestOf] at h
  | cons q ps ih =>
    unfold bestOf at h
    split at h
    · simp_all
    · next r hr =>
      split at h
      · exact List.mem_cons_of_mem _ (ih (hr.trans h))
      · simp_all

end DesignDeps
