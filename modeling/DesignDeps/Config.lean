import DesignDeps.Error
import DesignDeps.Freshness
import DesignDeps.Json
import DesignDeps.Text.Split

/-!
# Configurations

What one run is asked to do. A configuration can be written by hand as JSON; `validate` is what a
run insists on before it touches anything.
-/

namespace DesignDeps

open Text

structure Config where
  /-- The root of the source tree; relative overrides are seen from it. -/
  sourceRoot : Path
  outputDir : Path
  variants : List String
  rootModule : String
  /-- Lists of overrides and override files, later ones winning. -/
  overrides : List String
  /-- Directories that hold an entry of this name are left out. -/
  ignoreFile : String
  /-- Paths that contain one of these are left out. -/
  ignoreDirs : List String
  extraDirs : List Path
  staleness : Staleness
  deriving DecidableEq, Inhabited

namespace Config

def defaultIgnoreFile : String := ".ignore_build_system"

def new (sourceRoot outputDir : Path) (rootModule : String) : Config :=
  { sourceRoot, outputDir, rootModule
    variants := []
    overrides := []
    ignoreFile := defaultIgnoreFile
    ignoreDirs := []
    extraDirs := []
    staleness := .existing }

def variantsOf (list : String) : List String :=
  ((splitAll ',' list).map trim).filter (· ≠ "")

def withVariantList (c : Config) (list : String) : Config :=
  { c with variants := variantsOf list }

def isBadVariant (variant : String) : Bool :=
  variant.toList.any fun c => c == '/' || c == '\\' || isBlank c

def validate (c : Config) : Except ConfigFault Unit :=
  if c.variants.isEmpty then .error .noVariants
  else
    match c.variants.find? isBadVariant with
    | some variant => .error (.badVariant variant)
    | none =>
      if trim c.rootModule = "" then .error .emptyRoot
      else if c.ignoreFile = "" then .error .emptyIgnoreFile
      else .ok ()

-- ---------------------------------------------------------------------------
-- JSON
-- ---------------------------------------------------------------------------

def fieldNames : List String :=
  ["source_root", "output_dir", "variants", "root_module", "substitutions", "ignore_file",
    "ignore_dirs", "extra_dirs", "staleness"]

def toJson (c : Config) : Json :=
  .obj (fieldNames.zip
    [.str c.sourceRoot.text, .str c.outputDir.text, .ofStrings c.variants, .str c.rootModule,
      .ofStrings c.overrides, .str c.ignoreFile, .ofStrings c.ignoreDirs,
      .ofStrings (c.extraDirs.map Path.text), .str c.staleness.name])

def stalenessOfJson? : Json → Option Staleness
  | .str s => Staleness.ofName? s
  | .obj [(s, .null)] => Staleness.ofName? s
  | _ => none

def optional {α : Type} (read : Json → Option α) (default : α) : Option Json → Option α
  | none => some default
  | some j => read j

/-- Reads the fields from wherever `field?` finds them. -/
def ofFields? (field? : String → Option Json) : Option Config := do
  let sourceRoot ← (← field? "source_root").string?
  let outputDir ← (← field? "output_dir").string?
  let variants ← (← field? "variants").strings?
  let rootModule ← (← field? "root_module").string?
  let overrides ← optional Json.strings? [] (field? "substitutions")
  let ignoreFile ← optional Json.string? defaultIgnoreFile (field? "ignore_file")
  let ignoreDirs ← optional Json.strings? [] (field? "ignore_dirs")
  let extraDirs ← optional Json.strings? [] (field? "extra_dirs")
  let staleness ← optional stalenessOfJson? .existing (field? "staleness")
  return {
    sourceRoot := ⟨sourceRoot⟩
    outputDir := ⟨outputDir⟩
    variants, rootModule, overrides, ignoreFile, ignoreDirs
    extraDirs := extraDirs.map Path.mk
    staleness }

def ofJson? : Json → Option Config
  | .obj fields => ofFields? (List.lookup · fields)
  | .arr items =>
    if items.length ≤ fieldNames.length then ofFields? (List.lookup · (fieldNames.zip items)) else none
  | _ => none

end Config

end DesignDeps
