import DesignDeps.Disk
import DesignDeps.Error

/-!
# Where a path leads

A path is walked name by name. Links are followed, forty of them at most in one walk; every name but
the last has to lead to a directory, and a trailing separator asks the same of the last one.
-/

namespace DesignDeps.Disk

open Text

/-- What the last name of a walk stands for. -/
inductive Final
  /-- Something that exists, behind all links. -/
  | follow
  /-- Something that exists, be it a link. -/
  | keepLink
  /-- A file to be written, behind all links, whether it exists or not. -/
  | create
  deriving DecidableEq

def maxLinks : Nat := 40

def maxName : Nat := 255

def maxPath : Nat := 4096

def steps (p : Path) : List String :=
  let ps := pieces '/' p.text.toList
  ((ps.dropLast.filter (· ≠ [])) ++ [ps.getLastD []]).map String.ofList

/-- The location that `names` lead to from the directory at `here`. -/
def walk (d : Disk) (final : Final) (links : Nat) (here : Location) :
    List String → Except IoError Location
  | [] => .ok here
  | name :: rest =>
    if name = "" || name = "." then d.walk final links here rest
    else if name = ".." then d.walk final links here.dropLast rest
    else if final = .create && rest = [""] then .error .isDirectory
    else if name.utf8ByteSize > maxName then .error .nameTooLong
    else
      match d.get? (here ++ [name]) with
      | none =>
        if final = .create && rest.isEmpty then .ok (here ++ [name]) else .error .notFound
      | some .dir => d.walk final links (here ++ [name]) rest
      | some (.file ..) => if rest.isEmpty then .ok (here ++ [name]) else .error .notDirectory
      | some (.link target) =>
        if final = .keepLink && rest.isEmpty then .ok (here ++ [name])
        else
          match links with
          | 0 => .error .tooManyLinks
          | links + 1 =>
            d.walk final links (if target.isAbsolute then [] else here) (steps target ++ rest)
termination_by names => (links, names.length)

def startOf (d : Disk) (p : Path) : Location :=
  if p.isAbsolute then [] else d.cwd

/-- Where `p` leads, however long its text is. -/
def locate (d : Disk) (final : Final) (p : Path) : Except IoError Location :=
  if p.text = "" then .error .notFound
  else d.walk final maxLinks (d.startOf p) (steps p)

/-- Where `p` leads when it is handed to the system. -/
def reach (d : Disk) (final : Final) (p : Path) : Except IoError Location :=
  if p.text.utf8ByteSize ≥ maxPath then .error .nameTooLong else d.locate final p

def canonical (d : Disk) (p : Path) : Except IoError Path :=
  (d.locate .follow p).map Location.path

end DesignDeps.Disk
