import DesignDeps.Disk.Access

/-!
# Disks from inventories

An inventory lists what stands on a disk, one item on a line: a letter for its kind, the time of its
last change in seconds, its path, and for a link what it leads to, separated by tabs. A disk is made
from one by entering item after item, together with the directories above it.
-/

namespace DesignDeps

open Text

inductive Item
  | dir (path : Path)
  | file (path : Path) (modified : Nat)
  | link (path target : Path)
  deriving DecidableEq, Inhabited

namespace Item

def seconds (s : String) : Nat :=
  ((String.ofList (s.toList.takeWhile Char.isDigit)).toNat?).getD 0

def ofLine? (line : String) : Option Item :=
  match splitAll '\t' line with
  | "d" :: _ :: path :: _ => some (.dir ⟨path⟩)
  | "f" :: modified :: path :: _ => some (.file ⟨path⟩ (seconds modified))
  | "l" :: _ :: path :: target :: _ => some (.link ⟨path⟩ ⟨target⟩)
  | _ => none

def path : Item → Path
  | .dir path | .file path _ | .link path _ => path

def modified : Item → Nat
  | .file _ modified => modified
  | .dir _ | .link .. => 0

end Item

namespace Disk

def blank (cwd : Path) (clock : Nat) : Disk :=
  let d : Disk := ⟨[], [], clock⟩
  let d := (d.makeDirs cwd).2
  { d with cwd := ((d.locate .follow cwd).toOption).getD [] }

def above (d : Disk) (p : Path) : Disk :=
  match p.parent? with
  | some parent => (d.makeDirs parent).2
  | none => d

/-- The disk with an item, whose content matters for a file only. What cannot be entered is left
out. -/
def enter (d : Disk) (item : Item) (content : ByteArray) : Disk :=
  match item with
  | .dir p => (d.makeDirs p).2
  | .link p target =>
    let d := d.above p
    ((d.makeLink p target).toOption).getD d
  | .file p modified =>
    let d := d.above p
    match d.write p content with
    | .error _ => d
    | .ok d => d.touch p modified

def changesSince (d old : Disk) : List (Path × Entry) :=
  (d.entries.filter fun e => old.get? e.1 ≠ some e.2).map fun e => (Location.path e.1, e.2)

end Disk

end DesignDeps
