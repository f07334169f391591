import DesignDeps.Path

/-!
# File systems

A disk is a value: what stands at which location, the directory that relative paths start from, and
the time that written files get. A location is the list of names from the root down, free of links
and of `..`; the root itself is always a directory. There are no permissions and there is no end to
the space on a disk (what they refuse is in `Faults`), and no time passes during a run.
-/

namespace DesignDeps

abbrev Location := List String

-- Contents are compared byte by byte, whatever other instance a library brings.
instance decidableEqContent : DecidableEq ByteArray :=
  ByteArray.instDecidableEq

inductive Entry
  | file (content : ByteArray) (modified : Nat)
  | dir
  | link (target : Path)
  deriving DecidableEq, Inhabited

structure Disk where
  entries : List (Location × Entry)
  cwd : Location
  clock : Nat
  deriving DecidableEq, Inhabited

namespace Disk

def lookupIn (l : Location) : List (Location × Entry) → Option Entry
  | [] => none
  | e :: es => if e.1 = l then some e.2 else lookupIn l es

theorem exists_lookupIn_iff {l : Location} {es : List (Location × Entry)} :
    (∃ entry, lookupIn l es = some entry) ↔ ∃ e ∈ es, e.1 = l := by
  induction es with
  | nil => simp [lookupIn]
  | cons e es ih => by_cases hl : e.1 = l <;> simp [lookupIn, hl, ih]

def get? (d : Disk) (l : Location) : Option Entry :=
  if l = [] then some .dir else lookupIn l d.entries

@[simp] theorem get?_root (d : Disk) : d.get? [] = some .dir := rfl

def putInto (l : Location) (entry : Entry) : List (Location × Entry) → List (Location × Entry)
  | [] => [(l, entry)]
  | e :: es => if e.1 = l then (l, entry) :: es else e :: putInto l entry es

theorem lookupIn_putInto {l k : Location} {entry : Entry} {es : List (Location × Entry)} :
    lookupIn k (putInto l entry es) = if k = l then some entry else lookupIn k es := by
  induction es with
  | nil => simp [putInto, lookupIn, eq_comm]
  | cons e es ih =>
    unfold putInto
    split
    · next h =>
      by_cases hk : k = l
      · simp [lookupIn, hk]
      · simp [lookupIn, hk, Ne.symm hk, h]
    · next h =>
      by_cases hk : e.1 = k
      · have : k ≠ l := hk ▸ h
        simp [lookupIn, hk, this]
      · simp [lookupIn, hk, ih]

def put (d : Disk) (l : Location) (entry : Entry) : Disk :=
  { d with entries := putInto l entry d.entries }

theorem get?_put {d : Disk} {l k : Location} {entry : Entry} (hk : k ≠ []) :
    (d.put l entry).get? k = if k = l then some entry else d.get? k := by
  simp [get?, put, hk, lookupIn_putInto]

@[simp] theorem cwd_put {d : Disk} {l : Location} {entry : Entry} : (d.put l entry).cwd = d.cwd := rfl

@[simp] theorem clock_put {d : Disk} {l : Location} {entry : Entry} :
    (d.put l entry).clock = d.clock := rfl

def remove (d : Disk) (l : Location) : Disk :=
  { d with entries := d.entries.filter fun e => !l.isPrefixOf e.1 }

end Disk

/-- The absolute path of a location, which is the one canonical spelling of it. -/
def Location.path (l : Location) : Path :=
  ⟨"/" ++ "/".intercalate l⟩

end DesignDeps
