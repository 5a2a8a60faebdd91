import Reparse.Proofs.Git.Tracking

/-!
# A depot of clones

A host whose git does what its commands say: it clones a repository with all
commits, and a fetch sees all branches, tags and commits.  A command fails when
it has nothing to work on, and then changes nothing.
-/

namespace Reparse.Git

open Files Text

namespace Clone

/-- The clone of a repository, with all its commits. -/
def ofRepository (origin : String) (repository : Repository) : Clone where
  origin := origin
  branches name :=
    if name = repository.mainBranch then repository.branches name else none
  tracked := repository.branches
  tags := repository.tags
  commits := repository.commits
  head := .branch repository.mainBranch

theorem isClone_ofRepository (origin : String) (repository : Repository) :
    IsClone origin repository (ofRepository origin repository) :=
  ⟨rfl, fun _ => rfl, rfl, rfl, id⟩

def fetch (repository : Repository) (clone : Clone) : Clone :=
  { clone with
    tracked name := (repository.branches name).or (clone.tracked name)
    tags name := (repository.tags name).or (clone.tags name)
    commits id := (repository.commits id).or (clone.commits id) }

theorem fetched_fetch (repository : Repository) (clone : Clone) :
    Fetched repository clone (clone.fetch repository) where
  origin_eq := rfl
  branches_eq := rfl
  tracked_of hname := (Option.or_eq_some_iff.mp hname).symm.imp And.right id
  tags_of hname := (Option.or_eq_some_iff.mp hname).symm.imp And.right id
  commits_of hid := (Option.or_eq_some_iff.mp hid).symm.imp And.right id
  tracks hname := by simp [fetch, hname]
  tags_new hname := by simp [fetch, hname]

def perform? (repository : Repository) (clone : Clone) : Command → Option Clone
  | .fetch => some (clone.fetch repository)
  | .checkout ref => clone.checkout? ref
  | .clean | .reset | .head => some clone

theorem does_of_perform? {repository : Repository} {clone next : Clone}
    {command : Command}
    (hperform : clone.perform? repository command = some next) :
    clone.Does repository command next := by
  cases command with
  | fetch =>
      cases hperform
      exact fetched_fetch repository clone
  | checkout ref => exact hperform
  | clean => exact (Option.some.inj hperform).symm
  | reset => exact (Option.some.inj hperform).symm
  | head => exact (Option.some.inj hperform).symm

theorem begins_self (repository : Repository) (clone : Clone)
    (command : Command) :
    clone.Begins repository command clone := by
  cases command with
  | fetch => exact ⟨rfl, rfl, .inl, .inl, .inl⟩
  | checkout ref => exact .inl rfl
  | clean => rfl
  | reset => rfl
  | head => rfl

end Clone

def Command.ofArgs? : List String → Option Command
  | ["fetch", "--tags", "origin"] => some .fetch
  | ["clean", "--force", "-d", "-x"] => some .clean
  | ["checkout", "--force", ref] => some (.checkout ref)
  | ["reset", "--hard"] => some .reset
  | ["rev-parse", "HEAD"] => some .head
  | _ => none

structure Depot where
  repositories : String → Repository
  clones : Place → Option Clone

namespace Depot

variable {depot : Depot} {path : Path}

def view (path : Path) (depot : Depot) : World :=
  ⟨depot.repositories, depot.clones (path.resolve [])⟩

def push (depot : Depot) (uri branch : String) (commit : CommitId) : Depot :=
  { depot with
    repositories := Function.update depot.repositories uri
      ((depot.repositories uri).push branch commit) }

theorem grows_push (path : Path) (depot : Depot) (uri branch : String)
    (commit : CommitId) :
    (view path depot).Grows (view path (depot.push uri branch commit)) where
  clone_eq := rfl
  repositories := by
    intro other
    rcases eq_or_ne other uri with rfl | hne
    · simpa [view,
        push] using (depot.repositories other).grows_push branch commit
    · simpa [view, push, Function.update_of_ne hne] using
        Repository.Grows.refl (depot.repositories other)

theorem repositories_push (depot : Depot) (uri branch : String)
    (commit : CommitId) :
    (depot.push uri branch commit).repositories uri =
      (depot.repositories uri).push branch commit := by
  simp [push]

/-- What a command prints: the commit at the head, when it asks for that. -/
def shown (clone : Clone) : Command → List UInt8
  | .head => Utf8.encode ((clone.headCommit?.map CommitId.text).getD "").toList
  | _ => []

def put (depot : Depot) (place : Place) (clone : Clone) : Depot :=
  { depot with clones := Function.update depot.clones place (some clone) }

def runClone (depot : Depot) (uri : String) (place : Place) : Output × Depot :=
  if (depot.clones place).isSome then (⟨false, [], []⟩, depot)
  else
    (⟨true, [], []⟩, depot.put place
      (.ofRepository uri (depot.repositories uri)))

def runInside (depot : Depot) (place : Place) (command : Command) :
    Output × Depot :=
  match depot.clones place with
  | none => (⟨false, [], []⟩, depot)
  | some clone =>
    match clone.perform? (depot.repositories clone.origin) command with
    | none => (⟨false, [], []⟩, depot)
    | some next => (⟨true, shown clone command, []⟩, depot.put place next)

def run (depot : Depot) (dir : Path) (args : List String) : Output × Depot :=
  match args with
  | ["clone", uri, name] => depot.runClone uri (dir.resolve [] ++ [name])
  | args =>
    match Command.ofArgs? args with
    | none => (⟨false, [], []⟩, depot)
    | some command => depot.runInside (dir.resolve []) command

def host : Host Depot where
  isThere depot path := (depot.clones (path.resolve [])).isSome
  isFolder depot path := (depot.clones (path.resolve [])).isSome
  makeFolders depot _ := (.ok (), depot)
  run depot dir args := (.ok (depot.run dir args).1, (depot.run dir args).2)

theorem run_args (depot : Depot) (dir : Path) (command : Command) :
    depot.run dir command.args = depot.runInside (dir.resolve []) command := by
  cases command <;> rfl

theorem succeeded_run (depot : Depot) (dir : Path) (args : List String) :
    succeeded (host.run depot dir args).1 = (depot.run dir args).1.success :=
  rfl

/-- What a command in a clone comes to: it is performed, or it fails and
changes nothing. -/
theorem runInside_of_clone {place : Place} {clone : Clone}
    (hclone : depot.clones place = some clone) (command : Command) :
    depot.runInside place command =
      match clone.perform? (depot.repositories clone.origin) command with
      | none => (⟨false, [], []⟩, depot)
      | some next =>
          (⟨true, shown clone command, []⟩, depot.put place next) := by
  unfold runInside
  rw [hclone]

theorem runInside_of_none {place : Place} (hclone : depot.clones place = none)
    (command : Command) :
    depot.runInside place command = (⟨false, [], []⟩, depot) := by
  unfold runInside
  rw [hclone]

theorem repositories_runInside (place : Place) (command : Command) :
    (depot.runInside place command).2.repositories = depot.repositories := by
  unfold runInside
  split
  · rfl
  · split <;> rfl

theorem repositories_run {dir : Path} {args : List String}
    (hargs : IsCommand args) :
    (depot.run dir args).2.repositories = depot.repositories := by
  cases hargs with
  | clone uri name =>
      simp only [run, runClone]
      split_ifs <;> rfl
  | fetch => exact repositories_runInside _ .fetch
  | clean => exact repositories_runInside _ .clean
  | checkout ref => exact repositories_runInside _ (.checkout ref)
  | reset => exact repositories_runInside _ .reset
  | head => exact repositories_runInside _ .head

theorem firstLine?_shown (clone : Clone) :
    firstLine? (Utf8.decodeLossy (shown clone .head)) =
      clone.headCommit?.map CommitId.text := by
  unfold shown
  rw [Utf8.decodeLossy_encode]
  cases clone.headCommit? with
  | none => rfl
  | some commit => exact commit.plain

theorem clone_put (path : Path) (clone : Clone) :
    (view path (depot.put (path.resolve []) clone)).clone = some clone := by
  simp [view, put]

/-- The git of a depot works on the clone at any path. -/
theorem tracks (path : Path) : host.Tracks path (view path) where
  isThere_of_clone hclone := hclone
  makeFolders_view := rfl
  run_repositories hargs := repositories_run hargs
  clone_ok := by
    intro depot uri name hname hclone _
    have hplace := Host.resolve_cloneParent hname []
    have hrun : depot.run (Host.cloneParent path) ["clone", uri, name] =
        (⟨true, [], []⟩, depot.put (path.resolve [])
          (.ofRepository uri (depot.repositories uri))) := by
      have hempty : ¬ (depot.clones (path.resolve [])).isSome := by
        simpa [view] using hclone
      simp only [run, runClone, ← hplace]
      rw [if_neg hempty]
    refine ⟨_, ?_, Clone.isClone_ofRepository uri (depot.repositories uri)⟩
    simp only [host, hrun]
    exact clone_put path _
  clone_failed := by
    intro depot uri name hclone hfailed
    simp only [host, run, runClone] at hfailed ⊢
    split_ifs at hfailed ⊢
    · exact hclone
    · cases hfailed
  command_ok := by
    intro depot clone command hclone hsucceeded
    rw [succeeded_run, run_args, runInside_of_clone hclone] at hsucceeded
    simp only [host, run_args, runInside_of_clone hclone]
    cases hperform : clone.perform? (depot.repositories clone.origin)
      command with
    | none =>
        rw [hperform] at hsucceeded
        cases hsucceeded
    | some next =>
        exact ⟨next, clone_put path next, Clone.does_of_perform? hperform⟩
  command_failed := by
    intro depot clone command hclone hfailed
    rw [succeeded_run, run_args, runInside_of_clone hclone] at hfailed
    simp only [host, run_args, runInside_of_clone hclone]
    cases hperform : clone.perform? (depot.repositories clone.origin)
      command with
    | none => exact ⟨clone, hclone, Clone.begins_self _ clone command⟩
    | some next =>
        rw [hperform] at hfailed
        cases hfailed
  command_without := by
    intro depot command hclone
    rw [succeeded_run]
    simp only [host, run_args, runInside_of_none hclone]
    exact ⟨trivial, hclone⟩
  head_shown := by
    intro depot clone output hclone hrun hsuccess
    have houtput : (depot.run path Command.head.args).1 = output :=
      Except.ok.inj hrun
    rw [run_args, runInside_of_clone hclone] at houtput
    rw [← houtput]
    exact firstLine?_shown clone

end Depot
end Reparse.Git
