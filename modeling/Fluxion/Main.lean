import Fluxion.Command.Run

/-!
# Fluxion.Main

The program: a run on the files of the machine.

What a run may look at is read first, the run is computed, and what it changed is written.
-/

namespace Fluxion

/-- The number of the system error for reading a directory as a file. -/
def isDirectoryCode : UInt32 := 21

/-- What is at a path. -/
def entryAt? (path : String) : IO (Option Entry) := do
  try
    let bytes ← IO.FS.readBinFile path
    return (String.fromUTF8? bytes).map .file
  catch e =>
    match e with
    | .inappropriateType _ code _ => return if code = isDirectoryCode then some .dir else none
    | _ => return none

/-- A disk with what is at a path, whose directory has been read before. -/
def withEntryAt (disk : Disk) (path : String) : IO Disk := do
  match disk.locate path, ← entryAt? path with
  | .ok (l, _), some e => return disk.put l e
  | _, _ => return disk

/-- The part of the disk that a run with given arguments depends on. -/
def diskFor (arguments : List String) : IO Disk := do
  let here := (← IO.currentDir).toString
  let disk : Disk := ⟨(Disk.names here).filter (!·.isEmpty), []⟩
  match Settings.parse arguments with
  | .ok s => ((Command.paths s).flatMap Disk.leading).foldlM withEntryAt disk
  | .error _ => return disk

/-- Write what a run changed. -/
def store (before after : Disk) : IO Unit :=
  (Disk.changes before after).forM fun (l, e) =>
    match e with
    | .dir => IO.FS.createDir (Disk.absolute l)
    | .file text => IO.FS.writeFile (Disk.absolute l) text

end Fluxion

open Fluxion in
/-- Run on the files of the machine. -/
def main (arguments : List String) : IO UInt32 := do
  let disk ← diskFor arguments
  let (status, session) := Command.run arguments disk
  store disk session.disk
  IO.print session.out
  IO.eprint session.err
  match status with
  | .ok n => return n.toUInt32
  | .error f =>
    IO.eprintln f.line
    return 1
