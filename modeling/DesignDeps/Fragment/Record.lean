import DesignDeps.Path
import DesignDeps.SourceKind
import DesignDeps.Text.Utf8

/-!
# Make fragments

A fragment describes one module in one variant to make: the rule of its object, the rule of the
fragment itself, a guarded inclusion of every dependency's fragment, and two variables that gather
the modules and the headers below it. All of it follows from the module, its source, the variant and
the dependencies in order.

Nothing is escaped: names and paths stand in the text as they are.
-/

namespace DesignDeps.Fragment

structure Record where
  module : String
  source : Path
  variant : String
  dependencies : List String
  deriving DecidableEq, Inhabited

namespace Record

def depDir : String := "$(DEP_DIR)"

def objectOf (module variant : String) : String :=
  depDir ++ "/" ++ module ++ "." ++ variant ++ ".o"

def fragmentOf (module variant : String) : String :=
  depDir ++ "/" ++ module ++ "." ++ variant ++ ".d"

def includeDirBlock (dir : String) : String :=
  "ifeq (,$(findstring +" ++ dir ++ "\",$(VLOG_INCLUDES)))\n" ++
    "  VLOG_INCLUDES += \"+incdir+" ++ dir ++ "\"\nendif\n"

def headerBlock (r : Record) : String :=
  if isHeaderName r.module then includeDirBlock ((r.source.parent?.map Path.text).getD "") else ""

def objectRule (r : Record) : String :=
  r.headerBlock ++ objectOf r.module r.variant ++ ": " ++ r.source.text ++
    String.join (r.dependencies.map fun d => "\\\n\t" ++ objectOf d r.variant) ++ "\n"

def depRule (r : Record) : String :=
  fragmentOf r.module r.variant ++ ": " ++ r.source.text ++ "\n"

def guardedInclude (fragment : String) : String :=
  "ifeq (,$(filter " ++ fragment ++ ",$(MAKEFILE_LIST)))\n-include " ++ fragment ++ "\nendif\n"

def includeDirectives (r : Record) : List String :=
  r.dependencies.map fun d => guardedInclude (fragmentOf d r.variant)

def depsTerm (d : String) : String :=
  " $(" ++ d ++ "_DEPS)" ++ if isHeaderName d then "" else " " ++ d

def includeTerm (d : String) : String :=
  " $(" ++ d ++ "_INCLUDE)" ++ if isHeaderName d then " " ++ d else ""

def depsVar (r : Record) : String :=
  r.module ++ "_DEPS := $(call uniq," ++ String.join (r.dependencies.map depsTerm)

def includeVar (r : Record) : String :=
  r.module ++ "_INCLUDE := $(call uniq," ++ String.join (r.dependencies.map includeTerm)

def render (r : Record) : String :=
  r.objectRule ++ "\n" ++ r.depRule ++ "\n" ++ String.join r.includeDirectives ++ "\n" ++
    r.depsVar ++ ")\n" ++ r.includeVar ++ ")\n"

end Record

/-- What a fragment is asked for. The path to the source is bytes. -/
structure Request where
  module : String
  source : ByteArray
  variant : String
  dependencies : List String

namespace Request

/-- Bytes of the path that are no text are lost. It makes no difference whether a header's directory
is cut off before or after, since slashes stay. -/
def record (q : Request) : Record :=
  ⟨q.module, ⟨Text.Utf8.lossy q.source⟩, q.variant, q.dependencies⟩

def render (q : Request) : String :=
  q.record.render

end Request

end DesignDeps.Fragment
