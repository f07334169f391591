import DesignDeps.Dependencies
import DesignDeps.Disk.Access
import DesignDeps.Error

/-!
# Scanning single files

The dependencies of files, each taken by itself: nothing is resolved or written. What is no text is
read as well as it can be.
-/

namespace DesignDeps

open Text

def scanFile (d : Disk) (path : Path) (module : String) : Except Error Dependencies :=
  match d.read path with
  | .error e => .error (.io path e)
  | .ok bytes => .ok (.ofText module (Utf8.lossy bytes))

structure ScanTarget where
  path : Path
  module : String
  deriving DecidableEq, Inhabited

def scanFiles (d : Disk) (targets : List ScanTarget) : List (Except Error Dependencies) :=
  targets.map fun t => scanFile d t.path t.module

end DesignDeps
