import DesignDeps.Disk.Locate
import DesignDeps.NameSet
import DesignDeps.Text.Utf8

/-!
# Reading and writing

The operations that the program asks of a file system. Those that change it return the changed disk.
One that fails has changed nothing, with two exceptions: `makeDirs` returns how far it came, and a
failed `write` what it left behind.

What the system refuses although the disk would allow it comes from outside, as `Faults`.
-/

namespace DesignDeps

/-- What befalls the writing of a file that the disk would take. -/
inductive Mishap
  /-- The file cannot be opened. -/
  | refused (cause : IoError)
  /-- The file is opened, which leaves it empty, and takes so many bytes before it fails. -/
  | cut (bytes : Nat) (cause : IoError)
  deriving DecidableEq, Inhabited

/-- What goes wrong for reasons that no disk shows, such as permissions and a lack of space. -/
structure Faults where
  writing : Disk → Path → Option Mishap := fun _ _ => none
  /-- Directories whose names cannot be listed. -/
  unlisted : List Location := []
  deriving Inhabited

namespace Disk

open Text

def entry? (d : Disk) (p : Path) : Except IoError Entry :=
  match d.reach .follow p with
  | .error e => .error e
  | .ok l =>
    match d.get? l with
    | none => .error .notFound
    | some entry => .ok entry

def exists? (d : Disk) (p : Path) : Bool :=
  (d.entry? p).isOk

def isFile (d : Disk) (p : Path) : Bool :=
  match d.entry? p with
  | .ok (.file ..) => true
  | _ => false

def isDir (d : Disk) (p : Path) : Bool :=
  match d.entry? p with
  | .ok .dir => true
  | _ => false

def modified? (d : Disk) (p : Path) : Option Nat :=
  match d.entry? p with
  | .ok (.file _ modified) => some modified
  | .ok .dir => some d.clock
  | _ => none

def read (d : Disk) (p : Path) : Except IoError ByteArray :=
  match d.entry? p with
  | .error e => .error e
  | .ok (.file content _) => .ok content
  | .ok .dir => .error .isDirectory
  | .ok (.link _) => .error .notFound

def readText (d : Disk) (p : Path) : Except IoError String :=
  match d.read p with
  | .error e => .error e
  | .ok bytes =>
    match Utf8.strict? bytes with
    | none => .error .notUtf8
    | some text => .ok text

/-- Writes a file, new or over an old one. Its directory has to exist. A failure comes with the disk
that it leaves, where the file may be cut off. -/
def write (d : Disk) (p : Path) (content : ByteArray) (mishap : Option Mishap := none) :
    Except (IoError × Disk) Disk :=
  match d.reach .create p with
  | .error e => .error (e, d)
  | .ok l =>
    match d.get? l with
    | some .dir => .error (.isDirectory, d)
    | _ =>
      match mishap with
      | none => .ok (d.put l (.file content d.clock))
      | some (.refused e) => .error (e, d)
      | some (.cut bytes e) => .error (e, d.put l (.file (content.extract 0 bytes) d.clock))

def touch (d : Disk) (p : Path) (modified : Nat) : Disk :=
  match d.reach .follow p with
  | .error _ => d
  | .ok l =>
    match d.get? l with
    | some (.file content _) => d.put l (.file content modified)
    | _ => d

/-- The location of an entry that does not exist yet, in a directory that does. -/
def vacancy (d : Disk) (p : Path) : Except IoError Location :=
  if p.text = "" then .error .notFound
  else if p.text.utf8ByteSize ≥ maxPath then .error .nameTooLong
  else
    let names := (steps p).filter (· ≠ "")
    match names.getLast? with
    | none => .error .alreadyExists
    | some name =>
      match d.walk .follow maxLinks (d.startOf p) (names.dropLast ++ [""]) with
      | .error e => .error e
      | .ok parent =>
        if name = "." || name = ".." then .error .alreadyExists
        else if name.utf8ByteSize > maxName then .error .nameTooLong
        else if (d.get? (parent ++ [name])).isSome then .error .alreadyExists
        else .ok (parent ++ [name])

def makeDir (d : Disk) (p : Path) : Except IoError Disk :=
  (d.vacancy p).map fun l => d.put l .dir

def makeLink (d : Disk) (p target : Path) : Except IoError Disk :=
  (d.vacancy p).map fun l => d.put l (.link target)

/-- Makes the first of the given directories, after those behind it as far as they are missing.
Directories made before a failure stay. -/
def makeDirsOf (d : Disk) : List Path → Except IoError Unit × Disk
  | [] => (.ok (), d)
  | p :: above =>
    if p.text = "" then (.ok (), d)
    else
      match d.makeDir p with
      | .ok d => (.ok (), d)
      | .error .notFound =>
        match d.makeDirsOf above with
        | (.error e, d) => (.error e, d)
        | (.ok (), d) =>
          match d.makeDir p with
          | .ok d => (.ok (), d)
          | .error e => (if d.isDir p then .ok () else .error e, d)
      | .error e => (if d.isDir p then .ok () else .error e, d)

def makeDirs (d : Disk) (p : Path) : Except IoError Unit × Disk :=
  d.makeDirsOf p.ancestors

def erase (d : Disk) (p : Path) : Except IoError Disk :=
  (d.reach .keepLink p).map d.remove

-- ---------------------------------------------------------------------------
-- Directories
-- ---------------------------------------------------------------------------

def children (d : Disk) (l : Location) : List String :=
  (NameSet.ofList (d.entries.filterMap fun e =>
    if e.1.dropLast = l then e.1.getLast? else none)).toList

theorem mem_children {d : Disk} {l : Location} {name : String} :
    name ∈ d.children l ↔ ∃ entry, (l ++ [name], entry) ∈ d.entries := by
  simp only [children, ← NameSet.mem_iff, NameSet.mem_ofList, List.mem_filterMap]
  constructor
  · rintro ⟨⟨k, entry⟩, hmem, h⟩
    split at h
    · next hl =>
      obtain ⟨init, rfl⟩ := List.getLast?_eq_some_iff.1 h
      simp only [List.dropLast_concat] at hl
      exact ⟨entry, hl ▸ hmem⟩
    · simp at h
  · rintro ⟨entry, hmem⟩
    exact ⟨_, hmem, by simp⟩

def depthOf : List (Location × Entry) → Nat
  | [] => 0
  | e :: es => max e.1.length (depthOf es)

def depth (d : Disk) : Nat := depthOf d.entries

theorem length_le_depthOf {e : Location × Entry} {es : List (Location × Entry)} (h : e ∈ es) :
    e.1.length ≤ depthOf es := by
  induction es with
  | nil => simp at h
  | cons f es ih =>
    rcases List.mem_cons.1 h with rfl | h
    · exact Nat.le_max_left _ _
    · exact Nat.le_trans (ih h) (Nat.le_max_right _ _)

theorem length_le_depth {d : Disk} {e : Location × Entry} (h : e ∈ d.entries) :
    e.1.length ≤ d.depth :=
  length_le_depthOf h

theorem depth_sub_lt {d : Disk} {l : Location} {name : String} (h : name ∈ d.children l) :
    d.depth - (l ++ [name]).length < d.depth - l.length := by
  obtain ⟨entry, hmem⟩ := mem_children.1 h
  have := length_le_depth hmem
  simp only [List.length_append, List.length_cons, List.length_nil] at this ⊢
  omega

def readDir (d : Disk) (p : Path) (unlisted : List Location := []) :
    Except IoError (List Path) :=
  match d.reach .follow p with
  | .error e => .error e
  | .ok l =>
    match d.get? l with
    | some .dir =>
      if l ∈ unlisted then .error .permissionDenied
      else .ok ((d.children l).map fun name => p.join ⟨name⟩)
    | _ => .error .notDirectory

/-- Every file below `p`, links followed, in ascending order in every directory. A loop of links
ends where the system refuses to follow more of them, `depth` names further down at the latest for
each link. -/
def filesWithin (d : Disk) : Nat → Path → List (Path × ByteArray)
  | 0, _ => []
  | n + 1, p =>
    match d.entry? p with
    | .ok (.file content _) => [(p, content)]
    | .ok .dir => ((d.readDir p).toOption.getD []).flatMap (d.filesWithin n)
    | _ => []

def filesBelow (d : Disk) (p : Path) : List (Path × ByteArray) :=
  if d.isDir p then d.filesWithin ((maxLinks + 1) * (d.depth + 1) + 1) p else []

end Disk

end DesignDeps
