import DesignDeps.Disk.Access

/-!
# When an existing fragment is reused

A fragment that is fresh stops the walk at its module: what is below it is neither read nor written.
-/

namespace DesignDeps

abbrev Freshness := Disk → (fragment source : Path) → Bool

namespace Freshness

def existing : Freshness := fun d fragment _ => d.exists? fragment

/-- A fragment is trusted while it is not older than its source. -/
def sourceTime : Freshness := fun d fragment source =>
  match d.modified? fragment, d.modified? source with
  | some f, some s => s ≤ f
  | _, _ => false

end Freshness

inductive Staleness
  | existing
  | mtime
  deriving DecidableEq, Inhabited

namespace Staleness

def freshness : Staleness → Freshness
  | .existing => .existing
  | .mtime => .sourceTime

def name : Staleness → String
  | .existing => "existing"
  | .mtime => "mtime"

def ofName? (s : String) : Option Staleness :=
  if s = "existing" then some .existing else if s = "mtime" then some .mtime else none

end Staleness

end DesignDeps
