import DesignDeps.Counting
import DesignDeps.Disk.Access
import DesignDeps.Log
import DesignDeps.Override.File
import DesignDeps.Override.Source

/-!
# Loading overrides

Sources are merged in order, later ones winning. An override file brings the files that it lists
along, depth first and before its own entries, which win over theirs. A file that is listed again
while it is still being loaded is a cycle; files are told apart by where their paths lead, not by
their spelling.

Loading ends because a file that is read is put on the stack, and no entry of the disk is on the
stack twice: `Disk.unopened` goes down. That every file leaves the stack again is part of what
`loadFileCore` and `loadListedCore` return; everybody else uses `loadFile` and `loadListed`.
-/

namespace DesignDeps

open Text

namespace Disk

def fileKey (d : Disk) (p : Path) : Path :=
  match d.canonical p with
  | .ok q => q
  | .error _ => p

/-- How many entries of the disk are not on a stack of files. -/
def unopened (d : Disk) (stack : List Path) : Nat :=
  d.entries.countP fun e => !stack.any (·.same (Location.path e.1))

theorem exists_entry_of_readText {d : Disk} {p : Path} {text : String}
    (h : d.readText p = .ok text) : ∃ e ∈ d.entries, d.fileKey p = Location.path e.1 := by
  unfold readText at h
  split at h
  · simp at h
  · next bytes hread =>
    clear h
    unfold read at hread
    split at hread
    · simp at hread
    · next content modified hentry =>
      clear hread
      unfold entry? at hentry
      split at hentry
      · simp at hentry
      · next l hreach =>
        split at hentry
        · simp at hentry
        · next entry hget =>
          simp only [Except.ok.injEq] at hentry
          subst hentry
          have hlocate : d.locate .follow p = .ok l := by
            unfold reach at hreach
            split at hreach
            · simp at hreach
            · exact hreach
          have hl : lookupIn l d.entries = some (.file content modified) := by
            unfold get? at hget
            split at hget
            · simp at hget
            · exact hget
          obtain ⟨e, he, hel⟩ := exists_lookupIn_iff.1 ⟨_, hl⟩
          refine ⟨e, he, ?_⟩
          simp [fileKey, canonical, hlocate, Except.map, hel]
    · simp at hread
    · simp at hread

theorem unopened_lt {d : Disk} {p : Path} {text : String} {stack : List Path}
    (h : d.readText p = .ok text) (hs : ¬stack.any (·.same (d.fileKey p)) = true) :
    d.unopened (d.fileKey p :: stack) < d.unopened stack := by
  obtain ⟨e, he, hkey⟩ := exists_entry_of_readText h
  refine countP_lt he (fun e' he' => ?_) ?_ ?_
  · simp only [List.any_cons, Bool.not_or, Bool.and_eq_true] at he'
    exact he'.2
  · simpa [hkey] using hs
  · simp [hkey, Path.same]

end Disk

namespace Override

structure Loader where
  base : Path
  /-- Files being loaded, the innermost first. -/
  stack : List Path
  /-- The latest event first. -/
  log : List Log.Event
  deriving DecidableEq

namespace Loader

def new (base : Path) : Loader := ⟨base, [], []⟩

def note (l : Loader) (events : List Log.Event) : Loader :=
  { l with log := events.reverse ++ l.log }

def events (l : Loader) : List Log.Event := l.log.reverse

def push (l : Loader) (file : Path) : Loader :=
  { l with stack := file :: l.stack }

def pop (l : Loader) : Loader :=
  { l with stack := l.stack.drop 1 }

theorem stack_pop {l₁ l₂ : Loader} {file : Path} (h : l₂.stack = (l₁.push file).stack) :
    l₂.pop.stack = l₁.stack := by
  simp [pop, h, push]

def enterAll (base : Path) (entries : List (String × Option String)) (t : Table) : Table :=
  entries.foldl (fun t e => t.insert (trim e.1) (Target.ofText base e.2)) t

/-- Reads a file, unless it is being loaded already. -/
def openFile (d : Disk) (l : Loader) (file : Path) : Except Error File × Loader :=
  if l.stack.any (·.same (d.fileKey file)) then (.error (.overrideCycle file), l)
  else
    let l := l.note [.readingOverrides file]
    match d.readText file with
    | .error e => (.error (.io file e), l)
    | .ok text =>
      match File.ofText? text with
      | .error _ => (.error (.malformedOverrides file), l)
      | .ok parsed => (.ok parsed, l)

theorem stack_openFile (d : Disk) (l : Loader) (file : Path) :
    (openFile d l file).2.stack = l.stack := by
  unfold openFile
  split
  · rfl
  · dsimp only
    split
    · rfl
    · split <;> rfl

theorem unopened_openFile {d : Disk} {l l' : Loader} {file : Path} {parsed : File}
    (h : openFile d l file = (.ok parsed, l')) :
    d.unopened (d.fileKey file :: l'.stack) < d.unopened l.stack := by
  have hstack := stack_openFile d l file
  rw [h] at hstack
  simp only at hstack
  unfold openFile at h
  split at h
  · simp at h
  · next hs =>
    dsimp only at h
    split at h
    · simp at h
    · next text htext =>
      rw [hstack]
      exact Disk.unopened_lt htext hs

abbrev Balanced (before : Loader) : Type :=
  { r : Except Error Table × Loader // r.2.stack = before.stack }

mutual
def loadFileCore (d : Disk) (l : Loader) (file : Path) : Balanced l :=
  match ho : openFile d l file with
  | (.error e, l₁) => ⟨(.error e, l₁), by
      have := stack_openFile d l file
      rwa [ho] at this⟩
  | (.ok parsed, l₁) =>
    have h₁ : l₁.stack = l.stack := by
      have := stack_openFile d l file
      rwa [ho] at this
    match loadListedCore d (l₁.push (d.fileKey file)) parsed.includes ∅ with
    | ⟨(.error e, l₂), h₂⟩ => ⟨(.error e, l₂.pop), (stack_pop h₂).trans h₁⟩
    | ⟨(.ok table, l₂), h₂⟩ =>
      ⟨(.ok (enterAll l.base parsed.entries table),
        l₂.pop.note (parsed.entries.map fun e => .fileOverride file e.1 e.2)),
        (stack_pop h₂).trans h₁⟩
termination_by (d.unopened l.stack, 0, 0)
decreasing_by exact .left _ _ (unopened_openFile ho)

def loadListedCore (d : Disk) (l : Loader) (files : List String) (table : Table) : Balanced l :=
  match files with
  | [] => ⟨(.ok table, l), rfl⟩
  | file :: files =>
    match loadFileCore d l (l.base.join ⟨file⟩) with
    | ⟨(.error e, l₁), h₁⟩ => ⟨(.error e, l₁), h₁⟩
    | ⟨(.ok nested, l₁), h₁⟩ =>
      match loadListedCore d l₁ files (table.extend nested) with
      | ⟨r, h₂⟩ => ⟨r, h₂.trans h₁⟩
termination_by (d.unopened l.stack, 1, files.length)
decreasing_by
  · exact .right _ (.left _ _ (by omega))
  · simp only at h₁
    rw [h₁]
    exact .right _ (.right _ (by simp))
end

/-- Loads an override file together with everything that it lists. -/
def loadFile (d : Disk) (l : Loader) (file : Path) : Except Error Table × Loader :=
  (loadFileCore d l file).val

def loadListed (d : Disk) (l : Loader) (files : List String) (table : Table) :
    Except Error Table × Loader :=
  (loadListedCore d l files table).val

theorem loadFile_eq (d : Disk) (l : Loader) (file : Path) :
    loadFile d l file =
      match openFile d l file with
      | (.error e, l) => (.error e, l)
      | (.ok parsed, l₁) =>
        match loadListed d (l₁.push (d.fileKey file)) parsed.includes ∅ with
        | (.error e, l) => (.error e, l.pop)
        | (.ok table, l₂) =>
          (.ok (enterAll l.base parsed.entries table),
            l₂.pop.note (parsed.entries.map fun e => .fileOverride file e.1 e.2)) := by
  unfold loadFile loadListed
  rw [loadFileCore]
  split
  · next h => simp [h]
  · next h =>
    simp only [h]
    split
    · next h' => simp [h']
    · next h' => simp [h']

theorem loadListed_nil (d : Disk) (l : Loader) (table : Table) :
    loadListed d l [] table = (.ok table, l) := by
  unfold loadListed
  rw [loadListedCore]

theorem loadListed_cons (d : Disk) (l : Loader) (file : String) (files : List String)
    (table : Table) :
    loadListed d l (file :: files) table =
      match loadFile d l (l.base.join ⟨file⟩) with
      | (.error e, l) => (.error e, l)
      | (.ok nested, l) => loadListed d l files (table.extend nested) := by
  unfold loadFile loadListed
  rw [loadListedCore]
  split
  · next h => simp [h]
  · next h => simp [h]

theorem stack_loadFile (d : Disk) (l : Loader) (file : Path) :
    (loadFile d l file).2.stack = l.stack :=
  (loadFileCore d l file).property

/-- Merges sources in order on top of a table. -/
def loadOnto (d : Disk) (l : Loader) (table : Table) : List Source → Except Error Table × Loader
  | [] => (.ok table, l)
  | .direct module path :: sources =>
    loadOnto d (l.note [.directOverride module path])
      (table.insert module (Target.ofText l.base path)) sources
  | .file file :: sources =>
    match loadFile d l file with
    | (.error e, l) => (.error e, l)
    | (.ok nested, l) => loadOnto d l (table.extend nested) sources

def load (d : Disk) (l : Loader) (sources : List Source) : Except Error Table × Loader :=
  loadOnto d l ∅ sources

end Loader

end Override

end DesignDeps
