import DesignDeps.Json
import DesignDeps.Log
import DesignDeps.NameSet
import DesignDeps.Override.Table

/-!
# What a walk remembers

The report gathers what a walk has done. Beside it the context holds which modules are claimed, so
that none is written twice, and which are being worked on, the innermost last, so that an edge back
to one of them is recognised.
-/

namespace DesignDeps

structure Report where
  root : String
  /-- Modules in the order in which their fragments were written. -/
  modules : List String
  fragments : List Path
  reused : NameSet
  unresolved : NameSet
  excluded : NameSet
  /-- Edges left out, each as the cycle that it would have closed. -/
  cycles : List (List String)
  deriving DecidableEq, Inhabited

namespace Report

def new (root : String) : Report :=
  { root, modules := [], fragments := [], reused := ∅, unresolved := ∅, excluded := ∅, cycles := [] }

def toJson (r : Report) : Json :=
  .obj [
    ("root", .str r.root),
    ("modules", .ofStrings r.modules),
    ("fragments", .ofStrings (r.fragments.map Path.text)),
    ("reused", .ofStrings r.reused.toList),
    ("unresolved", .ofStrings r.unresolved.toList),
    ("excluded", .ofStrings r.excluded.toList),
    ("cycles", .arr (r.cycles.map Json.ofStrings))]

end Report

namespace Walk

structure Context where
  visited : List String
  /-- Modules being worked on, the innermost last. -/
  active : List String
  report : Report
  deriving DecidableEq, Inhabited

namespace Context

/-- The root of a walk is claimed from the start. -/
def new (root : String) : Context :=
  ⟨[root], [], .new root⟩

def isVisited (c : Context) (module : String) : Bool :=
  c.visited.contains module

def mark (c : Context) (module : String) : Context :=
  if c.isVisited module then c else { c with visited := module :: c.visited }

theorem mem_visited_mark {c : Context} {module n : String} :
    n ∈ (c.mark module).visited ↔ n = module ∨ n ∈ c.visited := by
  unfold mark isVisited
  split
  · next h =>
    have hm : module ∈ c.visited := by simpa using h
    constructor
    · exact .inr
    · rintro (rfl | h)
      · exact hm
      · exact h
  · simp

theorem isVisited_iff {c : Context} {module : String} :
    c.isVisited module = true ↔ module ∈ c.visited := by
  simp [isVisited]

def cycle? (c : Context) (module : String) : Option (List String) :=
  if module ∈ c.active then some (c.active.dropWhile (· != module) ++ [module]) else none

theorem cycle?_eq_none_iff {c : Context} {module : String} :
    c.cycle? module = none ↔ module ∉ c.active := by
  simp [cycle?]

def push (c : Context) (module : String) : Context :=
  { c with active := c.active ++ [module] }

def pop (c : Context) : Context :=
  { c with active := c.active.dropLast }

@[simp] theorem pop_push (c : Context) (module : String) : (c.push module).pop = c := by
  simp [push, pop]

end Context

end Walk

end DesignDeps
