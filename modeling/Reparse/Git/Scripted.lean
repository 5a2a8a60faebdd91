import Reparse.Git.Client

/-!
# Scripted git

A host whose git answers from a list of replies, in order, in a folder of
files.  Every run is noted with the place where it happened.  When the replies
are used up, git does nothing and succeeds.
-/

namespace Reparse.Git

open Files

/-- An answer of git: it may make a folder below the one where it runs. -/
structure Reply where
  makes : Option Path := none
  stdout : List UInt8 := []
  stderr : List UInt8 := []
  status : Nat := 0

/-- The files with the folder that a reply makes, if it can be made. -/
def Reply.apply (reply : Reply) (place : Place) (files : Entry) : Entry :=
  match reply.makes with
  | none => files
  | some path =>
    match files.makeFoldersFrom place path with
    | .ok files => files
    | .error _ => files

/-- A run of git: where and with which arguments. -/
structure Run where
  place : Place
  args : List String
  deriving DecidableEq

structure Scripted where
  files : Entry
  /-- Whether there is a git to run. -/
  installed : Bool
  replies : List Reply
  runs : List Run

namespace Scripted

/-- The result and the state after the folders of a path were made. -/
def makeFolders (s : Scripted) (path : Path) :
    Except SystemError Unit × Scripted :=
  match s.files.makeFolders path with
  | .ok files => (.ok (), { s with files })
  | .error e => (.error e, s)

/-- A run in a place that is a folder. -/
def answer (s : Scripted) (place : Place) (args : List String) :
    Output × Scripted :=
  let reply := s.replies.head?.getD {}
  (⟨reply.status = 0, reply.stdout, reply.stderr⟩,
    { s with files := reply.apply place s.files, replies := s.replies.tail,
             runs := s.runs ++ [⟨place, args⟩] })

def run (s : Scripted) (dir : Path) (args : List String) :
    Except SystemError Output × Scripted :=
  match s.files.locate dir with
  | .error e => (.error e, s)
  | .ok place =>
    match s.files.at? place with
    | some (.folder _) =>
      if s.installed then
        let (output, s) := s.answer place args
        (.ok output, s)
      else (.error .notFound, s)
    | _ => (.error .notFolder, s)

def host : Host Scripted where
  isThere s path := s.files.isThere path
  isFolder s path := s.files.hasFolder path
  makeFolders := makeFolders
  run := run

end Scripted
end Reparse.Git
