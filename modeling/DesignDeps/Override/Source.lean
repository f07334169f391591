import DesignDeps.Override.Table

/-!
# Where overrides come from

An override is given in place as `name:path`, or in an override file. Lists of both are separated by
blanks, as they come out of a make variable; quotes left over from a shell are dropped wherever they
stand.
-/

namespace DesignDeps.Override

open Text

inductive Source
  /-- One override; without a path it excludes the module. -/
  | direct (module : String) (path : Option String)
  | file (path : Path)
  deriving DecidableEq, Inhabited

namespace Source

/-- Whatever has a colon is given in place, cut at the first one. -/
def parse (entry : String) : Source :=
  match splitFirst? ':' entry with
  | none => .file ⟨trim entry⟩
  | some (module, path) =>
    let path := trim path
    .direct (trim module) (if path = "" then none else some path)

def isQuote (c : Char) : Bool :=
  c == '\"' || c == '\''

def parseList (list : String) : List Source :=
  (fields (String.ofList (list.toList.filter (!isQuote ·)))).map parse

end Source

/-- The target written as `path`, seen from `base`: nothing but blanks excludes the module. -/
def Target.ofText (base : Path) (path : Option String) : Target :=
  match path.map trim with
  | none | some "" => .excluded
  | some p => .file (base.join ⟨p⟩)

end DesignDeps.Override
