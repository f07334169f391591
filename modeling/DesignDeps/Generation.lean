import DesignDeps.Config
import DesignDeps.Listing
import DesignDeps.Override.Loader
import DesignDeps.Walk

/-!
# Generating the fragments of a design

A configuration is checked first. Then the candidates are listed, the overrides are loaded, and the
fragments of the root and of everything below it are written. What fails ends the run, and nothing
is undone.
-/

namespace DesignDeps

structure Generation where
  result : Except Error Report
  disk : Disk
  events : List Log.Event

namespace Config

def lister (c : Config) : Lister :=
  ⟨c.sourceRoot, c.ignoreFile, c.ignoreDirs, c.extraDirs⟩

def sources (c : Config) : List Override.Source :=
  c.overrides.flatMap Override.Source.parseList

def loadOverrides (c : Config) (d : Disk) : Except Error Override.Table × List Log.Event :=
  match Override.Loader.load d (.new c.sourceRoot) c.sources with
  | (.error e, loader) => (.error e, loader.events)
  | (.ok table, loader) =>
    (.ok table, loader.events ++ if table.isEmpty then [] else [.overridesLoaded table.size])

def writer (c : Config) (index : FileIndex) (overrides : Override.Table)
    (faults : Faults := {}) : Writer where
  resolver := ⟨index, overrides⟩
  extractor := .lexical
  freshness := c.staleness.freshness
  variants := c.variants
  outDir := c.outputDir
  faults := faults

def write (c : Config) (d : Disk) (index : FileIndex) (overrides : Override.Table)
    (faults : Faults := {}) : Generation :=
  let (result, st) := (c.writer index overrides faults).write d c.rootModule
  ⟨result, st.disk, st.events⟩

def generateFrom (c : Config) (d : Disk) (index : FileIndex) (overrides : Override.Table)
    (faults : Faults := {}) : Generation :=
  match c.validate with
  | .error fault => ⟨.error (.invalidConfig fault), d, []⟩
  | .ok () => c.write d index overrides faults

def generate (c : Config) (d : Disk) (faults : Faults := {}) : Generation :=
  match c.validate with
  | .error fault => ⟨.error (.invalidConfig fault), d, []⟩
  | .ok () =>
    match c.lister.list d faults.unlisted with
    | (.error e, listing) => ⟨.error e, d, listing⟩
    | (.ok index, listing) =>
      match c.loadOverrides d with
      | (.error e, loading) => ⟨.error e, d, listing ++ loading⟩
      | (.ok overrides, loading) =>
        let run := c.write d index overrides faults
        { run with events := listing ++ loading ++ run.events }

end Config

end DesignDeps
