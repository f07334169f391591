import DesignDeps.CommandLine.Grammar
import DesignDeps.Config
import DesignDeps.Log

/-!
# What a command line asks for

A command line names a command with its arguments, and how much is logged. Logging options may stand
before or behind the name of the command; behind it they win.
-/

namespace DesignDeps.CommandLine

open Text

inductive ReportFormat
  | text
  | json
  deriving DecidableEq, Inhabited

inductive Command
  | generate (config : Config) (report : Option ReportFormat)
  | scan (files : List Path) (name : Option String) (detailed : Bool)
  | overrides (sourceRoot : Path) (sources : List String) (showPaths : Bool)
  deriving DecidableEq, Inhabited

structure Invocation where
  command : Command
  limit : Log.Level
  deriving DecidableEq, Inhabited

-- ---------------------------------------------------------------------------
-- Grammars
-- ---------------------------------------------------------------------------

def verbose : Opt := ⟨"verbose", ["debug"], ['v', 'd'], .count⟩

def quiet : Opt := ⟨"quiet", [], ['q'], .switch⟩

def help : Opt := ⟨"help", [], ['h'], .stop .help⟩

def version : Opt := ⟨"version", [], ['V'], .stop .version⟩

def anyText : String → Bool := fun _ => true

def oneOf (names : List String) : String → Bool := names.contains

def topGrammar : Grammar where
  options := [verbose, quiet, help, version]
  slots := []
  more := none

def generateGrammar : Grammar where
  options := [
    ⟨"subs", ["subsfilelist"], [], .value true anyText⟩,
    ⟨"ignore-file", ["ignorefile"], [], .value false anyText⟩,
    ⟨"ignore-dirs", ["ignoredirs"], [], .value true anyText⟩,
    ⟨"extra-dirs", ["extradirs"], [], .value true anyText⟩,
    ⟨"staleness", [], [], .value false (oneOf ["existing", "mtime"])⟩,
    ⟨"report", [], [], .value false (oneOf ["text", "json"])⟩,
    verbose, quiet, help]
  slots := [.path, .path, .text, .text]
  more := none

def scanGrammar : Grammar where
  options := [⟨"name", [], [], .value false anyText⟩, ⟨"detailed", [], [], .switch⟩, verbose, quiet,
    help]
  slots := []
  more := some .path

def overridesGrammar : Grammar where
  options := [⟨"paths", [], [], .switch⟩, verbose, quiet, help]
  slots := [.path]
  more := some .text

-- ---------------------------------------------------------------------------
-- Commands
-- ---------------------------------------------------------------------------

/-- The items of lists that may be separated by commas and by blanks. -/
def items (lists : List String) : List String :=
  (lists.flatMap (splitAll ',')).flatMap fields

def contradicts (g : Given) : Bool :=
  g.has verbose.name && g.has quiet.name

def limitOf (top command : Given) : Log.Level :=
  if top.has quiet.name || command.has quiet.name then .error
  else
    match (if command.has verbose.name then command else top).count verbose.name with
    | 0 => .warn
    | 1 => .debug
    | _ => .trace

def reportFormatOf (g : Given) : Option ReportFormat :=
  (g.values "report").head?.map fun v => if v = "json" then .json else .text

def configOf (g : Given) (sourceRoot outputDir variants rootModule : String) : Config :=
  { (Config.new ⟨sourceRoot⟩ ⟨outputDir⟩ rootModule).withVariantList variants with
    overrides := g.values "subs"
    ignoreFile := (g.values "ignore-file").headD Config.defaultIgnoreFile
    ignoreDirs := items (g.values "ignore-dirs")
    extraDirs := (items (g.values "extra-dirs")).map Path.mk
    staleness := ((g.values "staleness").head?.bind Staleness.ofName?).getD .existing }

def readCommand (gr : Grammar) (build : Given → Option Command) (words : List String) :
    Except Stop (Command × Given) := do
  let (g, _) ← gr.read words
  if contradicts g then throw .misuse
  match build g with
  | none => throw .misuse
  | some command => return (command, g)

def generateOf (g : Given) : Option Command :=
  match g.words with
  | [sourceRoot, outputDir, variants, rootModule] =>
    some (.generate (configOf g sourceRoot outputDir variants rootModule) (reportFormatOf g))
  | _ => none

def scanOf (g : Given) : Option Command :=
  some (.scan (g.words.map Path.mk) (g.values "name").head? (g.has "detailed"))

def overridesOf (g : Given) : Option Command :=
  match g.words with
  | sourceRoot :: sources => some (.overrides ⟨sourceRoot⟩ sources (g.has "paths"))
  | [] => none

def commandNames : List String := ["generate", "scan", "subs", "help"]

def readHelp : List String → Stop
  | [] => .help
  | [name] => if commandNames.contains name then .help else .misuse
  | _ => .misuse

def commandOf (name : String) (words : List String) : Except Stop (Command × Given) :=
  if name = "generate" then readCommand generateGrammar generateOf words
  else if name = "scan" then readCommand scanGrammar scanOf words
  else if name = "subs" then readCommand overridesGrammar overridesOf words
  else if name = "help" then .error (readHelp words)
  else .error .misuse

def Invocation.ofWords (words : List String) : Except Stop Invocation := do
  match ← topGrammar.read words with
  | (_, []) => throw .misuse
  | (top, name :: rest) =>
    let (command, g) ← commandOf name rest
    if contradicts top then throw .misuse
    return ⟨command, limitOf top g⟩

end DesignDeps.CommandLine
