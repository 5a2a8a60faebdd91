import Reparse.CommandLine.Clock
import Reparse.CommandLine.Program
import Reparse.Git.Scripted
import Std.Time.DateTime.Timestamp

/-!
# The executable

Reads the names of the files to work on from standard input, one to a line,
then the files, and runs the program on them.  It has no git to run, so
projects and suites must be there already.
-/

open Reparse

/-- The lines of a stream that are not empty. -/
partial def readNames (input : IO.FS.Stream) : IO (List String) := do
  let line ← input.getLine
  if line.isEmpty then return []
  let name := String.ofList (Text.trim line.toList)
  let rest ← readNames input
  return if name.isEmpty then rest else name :: rest

def readFiles (names : List String) : IO Files.Entry :=
  names.foldlM (fun (files : Files.Entry) (name : String) => do
    let bytes ← IO.FS.readBinFile name
    return files.put (.file bytes.toList) (Files.Path.parts ⟨name⟩))
      (.folder [])

def currentMoment : IO String := do
  let now ← Std.Time.Timestamp.now
  return CommandLine.showMoment now.toSecondsSinceUnixEpoch.val.toNat

def main (args : List String) : IO UInt32 := do
  let files ← readFiles (← readNames (← IO.getStdin))
  let workspace : Corpus.Workspace Git.Scripted :=
    { Git.Scripted.host with files := Git.Scripted.files }
  let moment ← currentMoment
  let (ending, _) :=
    CommandLine.run workspace ⟨moment, moment⟩ args ⟨files, false, [], []⟩
  IO.print ending.stdout
  IO.eprint ending.stderr
  return ending.status.toUInt32
