import DesignDeps.Error
import DesignDeps.Text.Quoted

/-!
# Progress messages

Everything a run reports on the way is an event; its level and its wording are read off it. What is
shown is decided by whoever runs the program, so functions return all events they cause, in order.
-/

namespace DesignDeps.Log

open Text

inductive Level
  | error
  | warn
  | info
  | debug
  | trace
  deriving DecidableEq, Inhabited

namespace Level

def name : Level → String
  | .error => "ERROR"
  | .warn => "WARN"
  | .info => "INFO"
  | .debug => "DEBUG"
  | .trace => "TRACE"

def rank : Level → Nat
  | .error => 0
  | .warn => 1
  | .info => 2
  | .debug => 3
  | .trace => 4

def within (l limit : Level) : Bool :=
  l.rank ≤ limit.rank

end Level

inductive Event
  | overrideUsed (name : String)
  | ambiguous (name : String) (candidates : List Path)
  | extracted (path : Path) (includes packages instances : Nat)
  | directOverride (module : String) (path : Option String)
  | readingOverrides (file : Path)
  | fileOverride (file : Path) (module : String) (path : Option String)
  | overridesLoaded (count : Nat)
  | prunedByPattern (path : Path) (pattern : String)
  | prunedByMarker (path : Path)
  | skipped (path : Path) (cause : IoError)
  | indexed (count : Nat) (root : Path)
  | entered (module : String)
  | dependencies (module : String) (names : List String)
  | cycleCut (cycle : List String) (module dependency : String)
  | excludedDropped (module dependency : String)
  | unresolvedDropped (module dependency : String)
  | alreadySeen (dependency : String)
  | alreadyExists (dependency : String)
  | wrote (fragment : Path)
  | finished (root : String) (fragments : Nat) (outDir : Path)
  | summary (root : String) (modules reused : Nat)
  deriving DecidableEq

namespace Event

def level : Event → Level
  | .ambiguous .. | .cycleCut .. | .skipped .. => .warn
  | .overridesLoaded .. | .indexed .. | .entered .. | .finished .. | .summary .. => .info
  | .directOverride .. | .fileOverride .. | .prunedByPattern .. | .prunedByMarker ..
  | .dependencies .. | .excludedDropped .. | .unresolvedDropped .. | .alreadyExists .. => .debug
  | .overrideUsed .. | .extracted .. | .readingOverrides .. | .alreadySeen .. | .wrote .. => .trace

def message : Event → String
  | .overrideUsed name => name ++ " resolved by substitution"
  | .ambiguous name candidates =>
    "Found multiple file entries for " ++ name ++ ": " ++
      " : ".intercalate (candidates.map Path.text)
  | .extracted path includes packages instances =>
    s!"{path.text}: {includes} includes, {packages} packages, {instances} instances"
  | .directOverride module path => "Direct subs " ++ module ++ ": " ++ path.getD ""
  | .readingOverrides file => "Loading substitution file " ++ file.text
  | .fileOverride file module path => file.text ++ " subbed " ++ module ++ ": " ++ path.getD ""
  | .overridesLoaded count => s!"Loaded {count} substitutions"
  | .prunedByPattern path pattern => "Pruning " ++ path.text ++ " (matches " ++ pattern ++ ")"
  | .prunedByMarker path => "Pruning " ++ path.text ++ " from file list"
  | .skipped path cause =>
    "Skipping unreadable entry: IO error for operation on " ++ path.text ++ ": " ++ cause.message
  | .indexed count root => s!"Indexed {count} files under {root.text}"
  | .entered module => module
  | .dependencies module names =>
    "Processing dependencies for " ++ module ++ ": " ++ quotedList names
  | .cycleCut cycle module dependency =>
    "Dependency cycle " ++ " -> ".intercalate cycle ++ ", dropping edge " ++ module ++ " -> " ++
      dependency
  | .excludedDropped module dependency =>
    "Dropping " ++ dependency ++ " from " ++ module ++ ", excluded by substitution"
  | .unresolvedDropped module dependency =>
    "Dropping " ++ dependency ++ " from " ++ module ++ ", no matching file"
  | .alreadySeen dependency => "End recursion for " ++ dependency ++ ", already seen"
  | .alreadyExists dependency => "End recursion for " ++ dependency ++ ", already exists"
  | .wrote fragment => "Wrote " ++ fragment.text
  | .finished root fragments outDir =>
    s!"Processed dependencies for {root}, wrote {fragments} fragments to {outDir.text}"
  | .summary root modules reused => s!"{root}: wrote {modules} modules, reused {reused}"

end Event

def shown (limit : Level) (events : List Event) : List Event :=
  events.filter (·.level.within limit)

end DesignDeps.Log
