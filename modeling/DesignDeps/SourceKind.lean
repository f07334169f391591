import DesignDeps.Path

/-!
# Kinds of source files

A file is classified by its extension, whatever the case of its ASCII letters. A module name refers
to a header when it carries a header extension itself, and there case matters.
-/

namespace DesignDeps

open Text

inductive SourceKind
  | source
  | header
  | other
  deriving DecidableEq, Inhabited

namespace SourceKind

def ofExtension (ext : String) : SourceKind :=
  let lower := String.ofList (ext.toList.map Char.toLower)
  if lower = "sv" || lower = "v" then .source
  else if lower = "svh" || lower = "vh" then .header
  else .other

def ofPath (p : Path) : SourceKind :=
  match p.extension? with
  | none => .other
  | some ext => ofExtension ext

/-- Only such files are searched for dependencies. -/
def isHdl : SourceKind → Bool
  | .source | .header => true
  | .other => false

end SourceKind

def isHeaderName (name : String) : Bool :=
  endsWith name ".svh" || endsWith name ".vh"

end DesignDeps
