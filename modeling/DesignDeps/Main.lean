import DesignDeps.CommandLine
import DesignDeps.Disk.Inventory

/-!
# The executable

The disk is known from an inventory on standard input, such as `find` prints with
`-printf '%y\t%T@\t%p\t%l\n'`; the contents of listed files are read from where they stand. What
the run has changed is written back before its output is printed.
-/

namespace DesignDeps.CommandLine

partial def readLines (input : IO.FS.Stream) (lines : List String) : IO (List String) := do
  let line ← input.getLine
  if line.isEmpty then return lines.reverse
  readLines input ((line.dropEndWhile '\n').toString :: lines)

def contentOf (item : Item) : IO ByteArray :=
  match item with
  | .file p _ => IO.FS.readBinFile p.text
  | .dir _ | .link .. => return .empty

def writeBack (change : Path × Entry) : IO Unit :=
  match change with
  | (p, .dir) => IO.FS.createDirAll p.text
  | (p, .file content _) => IO.FS.writeBinFile p.text content
  | (_, .link _) => return

end DesignDeps.CommandLine

open DesignDeps

def main (args : List String) : IO UInt32 := do
  let items := (← CommandLine.readLines (← IO.getStdin) []).filterMap Item.ofLine?
  let latest := items.foldl (fun t item => max t item.modified) 0
  let start := (← IO.getEnv "PWD").getD "/"
  let disk ← items.foldlM (fun disk item => return disk.enter item (← CommandLine.contentOf item))
    (Disk.blank ⟨start⟩ (latest + 1))
  let outcome := CommandLine.run disk args
  (outcome.disk.changesSince disk).forM CommandLine.writeBack
  IO.print outcome.output
  IO.eprint outcome.messages
  return outcome.code.toUInt32
