import DesignDeps.CommandLine.Invocation
import DesignDeps.Generation
import DesignDeps.Scan

/-!
# The program

What the command line does, as a function of the disk and the words: output, messages, exit code and
the disk afterwards. Messages show the events up to the level that was asked for, and after them
what went wrong.
-/

namespace DesignDeps.CommandLine

open Log

structure Outcome where
  code : Nat
  output : String
  messages : String
  disk : Disk

-- ---------------------------------------------------------------------------
-- Messages
-- ---------------------------------------------------------------------------

def tagOf (l : Level) : String :=
  match l with
  | .warn => "[WARN ] "
  | .info => "[INFO ] "
  | .error | .debug | .trace => "[" ++ l.name ++ "] "

def indented (message : String) : String :=
  String.ofList (message.toList.flatMap fun c => if c = '\n' then "\n    ".toList else [c])

def logLine (event : Event) : String :=
  tagOf event.level ++ indented event.message ++ "\n"

def logText (limit : Level) (events : List Event) : String :=
  String.join ((shown limit events).map logLine)

def errorLine (message : String) : String :=
  "error: " ++ message ++ "\n"

-- ---------------------------------------------------------------------------
-- Output
-- ---------------------------------------------------------------------------

def line (s : String) : String := s ++ "\n"

def reportText (r : Report) : String :=
  String.join <|
    line s!"{r.root}: {r.fragments.length} fragments written" ::
      r.modules.map (fun m => line ("  wrote   " ++ m)) ++
      r.reused.toList.map (fun m => line ("  reused  " ++ m)) ++
      r.excluded.toList.map (fun m => line ("  skipped " ++ m)) ++
      r.unresolved.toList.map (fun m => line ("  missing " ++ m)) ++
      r.cycles.map (fun c => line ("  cycle   " ++ " -> ".intercalate c))

def reportOutput (r : Report) : Option ReportFormat → String
  | none => ""
  | some .text => reportText r
  | some .json => line r.toJson.pretty

def nameLines (names : NameSet) : String :=
  String.join (names.toList.map fun n => line ("\t" ++ n))

def group (heading : String) (names : NameSet) : String :=
  if names.isEmpty then "" else line ("  " ++ heading ++ ":") ++ nameLines names

def dependenciesText (module : String) (detailed : Bool) (d : Dependencies) : String :=
  line (module ++ " dependencies:") ++
    if detailed then
      group "includes" d.includes ++ group "packages" d.packages ++ group "instances" d.instances
    else nameLines d.all

def targetText : Override.Target → String
  | .file path => path.text
  | .excluded => "(excluded)"

def tableText (showPaths : Bool) (t : Override.Table) : String :=
  if showPaths then String.join (t.entries.map fun e => line (e.1 ++ ": " ++ targetText e.2))
  else line (" ".intercalate (t.entries.map Prod.fst))

-- ---------------------------------------------------------------------------
-- Commands
-- ---------------------------------------------------------------------------

def runGenerate (d : Disk) (limit : Level) (c : Config) (format : Option ReportFormat) : Outcome :=
  let run := c.generate d
  match run.result with
  | .error e => ⟨1, "", logText limit run.events ++ errorLine e.message, run.disk⟩
  | .ok report =>
    let summary : Event := .summary report.root report.modules.length report.reused.size
    ⟨0, reportOutput report format, logText limit (run.events ++ [summary]), run.disk⟩

def scanTarget (name : Option String) (file : Path) : ScanTarget :=
  ⟨file, name.getD (file.stem?.getD "")⟩

def runScan (d : Disk) (files : List Path) (name : Option String) (detailed : Bool) : Outcome :=
  if name.isSome && files.length > 1 then
    ⟨1, "", errorLine "--name can only be used with a single file", d⟩
  else
    let targets := files.map (scanTarget name)
    let results := targets.zip (scanFiles d targets)
    let output := results.map fun (t, r) =>
      match r with
      | .ok found => dependenciesText t.module detailed found
      | .error _ => ""
    let messages := results.map fun (_, r) =>
      match r with
      | .ok _ => ""
      | .error e => errorLine e.message
    ⟨if results.any (!·.2.isOk) then 1 else 0, String.join output, String.join messages, d⟩

def runOverrides (d : Disk) (limit : Level) (sourceRoot : Path) (sources : List String)
    (showPaths : Bool) : Outcome :=
  match Override.Loader.load d (.new sourceRoot) (sources.flatMap Override.Source.parseList) with
  | (.error e, loader) => ⟨1, "", logText limit loader.events ++ errorLine e.message, d⟩
  | (.ok table, loader) => ⟨0, tableText showPaths table, logText limit loader.events, d⟩

def runCommand (d : Disk) (i : Invocation) : Outcome :=
  match i.command with
  | .generate config report => runGenerate d i.limit config report
  | .scan files name detailed => runScan d files name detailed
  | .overrides sourceRoot sources showPaths => runOverrides d i.limit sourceRoot sources showPaths

def versionText : String := "hdl-makedep 0.1.0\n"

def usageText : String :=
  "Generate make dependency fragments for SystemVerilog/Verilog modules\n\n" ++
  "Usage: hdl-makedep [-v | -q] <COMMAND>\n\n" ++
  "Commands:\n" ++
  "  generate <SRCBASE> <OUTDIR> <VARIANTS> <NAME>  Write dependency fragments for a module\n" ++
  "  scan <PATH>...                                 Print the dependencies found in source files\n" ++
  "  subs <SRCBASE> <SOURCES>...                    Print the merged substitution table\n" ++
  "  help [COMMAND]                                 Print this message\n"

def run (d : Disk) (words : List String) : Outcome :=
  match Invocation.ofWords words with
  | .error .version => ⟨0, versionText, "", d⟩
  | .error .help => ⟨0, usageText, "", d⟩
  | .error .misuse => ⟨2, "", usageText, d⟩
  | .ok invocation => runCommand d invocation

end DesignDeps.CommandLine
