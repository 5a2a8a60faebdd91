import Reparse.Git.Client
import Mathlib.Tactic

/-!
# Repositories and their clones

A repository has branches and tags, and commits that go by their ids.  A clone
remembers the repository from which it comes and what the branches and tags
there were when it last asked.  Beside these it has branches of its own: one
that the clone starts with, and one for every branch that was checked out
since.  A branch of its own starts where the branch of the repository stands.
Fetching does not move it.
-/

namespace Reparse.Git

structure CommitId where
  text : String
  /-- An id is read back from the line on which it is printed. -/
  plain : firstLine? text.toList = some text

theorem CommitId.eq_of_text {commit other : CommitId}
    (htext : commit.text = other.text) :
    commit = other := by
  cases commit
  cases other
  cases htext
  rfl

structure Repository where
  branches : String → Option CommitId
  tags : String → Option CommitId
  commits : String → Option CommitId
  /-- The branch with which a clone starts. -/
  mainBranch : String

/-- The commit that a reference names: a branch comes before a tag, and a tag
before an id. -/
def Repository.commitOf (repository : Repository) (ref : String) :
    Option CommitId :=
  (repository.branches ref).or
    ((repository.tags ref).or (repository.commits ref))

/-- What new commits, branches and tags make of a repository.  Branches and
tags may move. -/
structure Repository.Grows (old new : Repository) : Prop where
  branches : ∀ {name}, (old.branches name).isSome → (new.branches name).isSome
  tags : ∀ {name}, (old.tags name).isSome → (new.tags name).isSome
  commits :
    ∀ {id commit}, old.commits id = some commit → new.commits id = some commit

theorem Repository.Grows.refl (repository : Repository) :
    repository.Grows repository :=
  ⟨id, id, id⟩

def Repository.push (repository : Repository) (branch : String)
    (commit : CommitId) : Repository :=
  { repository with
    branches := Function.update repository.branches branch (some commit)
    commits id :=
      (repository.commits id).or (if id = commit.text then some commit
        else none) }

theorem Repository.grows_push (repository : Repository) (branch : String)
    (commit : CommitId) :
    repository.Grows (repository.push branch commit) where
  branches := by
    intro name hname
    rcases eq_or_ne name branch with rfl | hne
    · simp [push]
    · simpa [push, Function.update_of_ne hne] using hname
  tags := id
  commits hcommit := by simp [push, hcommit]

theorem Repository.commitOf_push (repository : Repository) (branch : String)
    (commit : CommitId) :
    (repository.push branch commit).commitOf branch = some commit := by
  simp [push, commitOf]

inductive Head where
  | branch (name : String)
  | commit (commit : CommitId)

structure Clone where
  origin : String
  branches : String → Option CommitId
  /-- The branches of the origin as they were last seen. -/
  tracked : String → Option CommitId
  tags : String → Option CommitId
  commits : String → Option CommitId
  head : Head

inductive Command where
  | fetch
  | clean
  | checkout (ref : String)
  | reset
  | head

namespace Command

def args : Command → List String
  | fetch => ["fetch", "--tags", "origin"]
  | clean => Host.cleanArgs
  | checkout ref => ["checkout", "--force", ref]
  | reset => ["reset", "--hard"]
  | head => ["rev-parse", "HEAD"]

/-- The command changes files at most, and nothing that the clone knows of
commits. -/
def IsIdle : Command → Prop
  | fetch | checkout _ => False
  | clean | reset | head => True

end Command

variable {repository later : Repository} {clone next last : Clone}

namespace Clone

/-- Nothing was fetched into this clone yet. -/
def empty (origin : String) : Clone :=
  ⟨origin, fun _ => none, fun _ => none, fun _ => none, fun _ =>
    none, .branch ""⟩

def headCommit? (clone : Clone) : Option CommitId :=
  match clone.head with
  | .branch name => clone.branches name
  | .commit commit => some commit

/-- Moves the head to the clone's own branch of this name, else to a new one
that starts where the branch was seen at the origin, else to a tag or a
commit. -/
def checkout? (clone : Clone) (ref : String) : Option Clone :=
  if (clone.branches ref).isSome then some { clone with head := .branch ref }
  else if (clone.tracked ref).isSome then
    some { clone with
      branches := Function.update clone.branches ref (clone.tracked ref),
        head := .branch ref }
  else
    ((clone.tags ref).or (clone.commits ref)).map fun commit =>
      { clone with head := .commit commit }

/-! ## What the commands do -/

structure IsClone (origin : String) (repository : Repository) (clone : Clone) :
    Prop where
  origin_eq : clone.origin = origin
  branches_eq : ∀ name, clone.branches name =
    if name = repository.mainBranch then repository.branches name else none
  tracked_eq : clone.tracked = repository.branches
  tags_eq : clone.tags = repository.tags
  commits_of : ∀ {id commit}, clone.commits id = some commit →
    repository.commits id = some commit

/-- A fetch was begun, and maybe not ended. -/
structure Fetching (repository : Repository) (clone next : Clone) : Prop where
  origin_eq : next.origin = clone.origin
  branches_eq : next.branches = clone.branches
  tracked_of : ∀ {name commit}, next.tracked name = some commit →
    clone.tracked name = some commit ∨ repository.branches name = some commit
  tags_of : ∀ {name commit}, next.tags name = some commit →
    clone.tags name = some commit ∨ repository.tags name = some commit
  commits_of : ∀ {id commit}, next.commits id = some commit →
    clone.commits id = some commit ∨ repository.commits id = some commit

/-- A fetch has seen every branch and every tag. -/
structure Fetched (repository : Repository) (clone next : Clone) : Prop
    extends Fetching repository clone next where
  tracks : ∀ {name commit}, repository.branches name = some commit →
    next.tracked name = some commit
  tags_new : ∀ {name commit}, repository.tags name = some commit →
    next.tags name = some commit

/-- What a command that succeeds makes of a clone. -/
def Does (repository : Repository) (clone : Clone) : Command → Clone → Prop
  | .fetch, next => Fetched repository clone next
  | .checkout ref, next => clone.checkout? ref = some next
  | .clean, next | .reset, next | .head, next => next = clone

/-- What a command that fails may make of a clone: a part of its work, all of
it or nothing. -/
def Begins (repository : Repository) (clone : Clone) : Command → Clone → Prop
  | .fetch, next => Fetching repository clone next
  | .checkout ref, next => next = clone ∨ clone.checkout? ref = some next
  | .clean, next | .reset, next | .head, next => next = clone

theorem eq_of_does_idle {command : Command} (hidle : command.IsIdle)
    (hdoes : clone.Does repository command next) : next = clone := by
  cases command with
  | fetch => cases hidle
  | checkout ref => cases hidle
  | clean => exact hdoes
  | reset => exact hdoes
  | head => exact hdoes

theorem eq_of_begins_idle {command : Command} (hidle : command.IsIdle)
    (hbegins : clone.Begins repository command next) : next = clone := by
  cases command with
  | fetch => cases hidle
  | checkout ref => cases hidle
  | clean => exact hbegins
  | reset => exact hbegins
  | head => exact hbegins

theorem headCommit?_checkout? {ref : String}
    (hcheckout : clone.checkout? ref = some next) :
    next.headCommit? =
      (clone.branches ref).or
        ((clone.tracked ref).or
          ((clone.tags ref).or (clone.commits ref))) := by
  unfold checkout? at hcheckout
  split_ifs at hcheckout with hown htracked
  · obtain ⟨commit, hcommit⟩ := Option.isSome_iff_exists.mp hown
    cases hcheckout
    simp [headCommit?, hcommit]
  · obtain ⟨commit, hcommit⟩ := Option.isSome_iff_exists.mp htracked
    cases hcheckout
    simp_all [headCommit?]
  · obtain ⟨commit, hcommit, rfl⟩ := Option.map_eq_some_iff.mp hcheckout
    rw [Option.not_isSome_iff_eq_none] at hown htracked
    simpa [headCommit?, hown, htracked] using hcommit.symm

/-! ## A clone beside its repository -/

/-- All that a clone knows is known to its repository, where branches and tags
may have moved. -/
structure Within (repository : Repository) (clone : Clone) : Prop where
  branches :
    ∀ {name}, (clone.branches name).isSome → (repository.branches name).isSome
  tracked :
    ∀ {name}, (clone.tracked name).isSome → (repository.branches name).isSome
  tags : ∀ {name}, (clone.tags name).isSome → (repository.tags name).isSome
  commits : ∀ {id commit}, clone.commits id = some commit →
    repository.commits id = some commit

/-- A clone has just seen its repository. -/
structure Fresh (repository : Repository) (clone : Clone) : Prop
    extends Within repository clone where
  tracked_eq : clone.tracked = repository.branches
  tags_eq : clone.tags = repository.tags

/-- A later state of a clone: its own branches stay where they are, and each
new one starts where the branch of the repository stands. -/
structure Follows (repository : Repository) (clone next : Clone) : Prop where
  origin_eq : next.origin = clone.origin
  keeps : ∀ {name commit}, clone.branches name = some commit →
    next.branches name = some commit
  starts : ∀ {name commit}, next.branches name = some commit →
    clone.branches name = some commit ∨ repository.branches name = some commit

theorem Follows.trans (hnext : Follows repository clone next)
    (hlast : Follows repository next last) :
    Follows repository clone last where
  origin_eq := hlast.origin_eq.trans hnext.origin_eq
  keeps hbranch := hlast.keeps (hnext.keeps hbranch)
  starts := by
    intro name commit hbranch
    rcases hlast.starts hbranch with hearlier | hnew
    · exact hnext.starts hearlier
    · exact .inr hnew

/-- A clone's own branch comes first, and a new one makes no difference. -/
theorem Follows.lookup_eq (hfollows : Follows repository clone next)
    (ref : String) :
    (next.branches ref).or (repository.commitOf ref) =
      (clone.branches ref).or (repository.commitOf ref) := by
  cases hold : clone.branches ref with
  | some commit => simp [hfollows.keeps hold]
  | none =>
      cases hnew : next.branches ref with
      | none => rfl
      | some commit =>
          have hbranch : repository.branches ref = some commit := by
            simpa [hold] using hfollows.starts hnew
          simp [Repository.commitOf, hbranch]

theorem within_empty (repository : Repository) (origin : String) :
    (empty origin).Within repository := by
  constructor <;> simp [empty]

theorem Within.grows (hwithin : clone.Within repository)
    (hgrows : repository.Grows later) :
    clone.Within later where
  branches hbranch := hgrows.branches (hwithin.branches hbranch)
  tracked hbranch := hgrows.branches (hwithin.tracked hbranch)
  tags htag := hgrows.tags (hwithin.tags htag)
  commits hcommit := hgrows.commits (hwithin.commits hcommit)

theorem Within.fetching (hwithin : clone.Within repository)
    (hfetch : Fetching repository clone next) :
    next.Within repository where
  branches := by
    rw [hfetch.branches_eq]
    exact hwithin.branches
  tracked := by
    intro name hname
    obtain ⟨commit, hcommit⟩ := Option.isSome_iff_exists.mp hname
    rcases hfetch.tracked_of hcommit with hold | hnew
    · exact hwithin.tracked (Option.isSome_of_mem hold)
    · exact Option.isSome_of_mem hnew
  tags := by
    intro name hname
    obtain ⟨commit, hcommit⟩ := Option.isSome_iff_exists.mp hname
    rcases hfetch.tags_of hcommit with hold | hnew
    · exact hwithin.tags (Option.isSome_of_mem hold)
    · exact Option.isSome_of_mem hnew
  commits := by
    intro id commit hcommit
    rcases hfetch.commits_of hcommit with hold | hnew
    · exact hwithin.commits hold
    · exact hnew

theorem Fetching.follows (hfetch : Fetching repository clone next) :
    Follows repository clone next where
  origin_eq := hfetch.origin_eq
  keeps hbranch := hfetch.branches_eq ▸ hbranch
  starts hbranch := .inl (hfetch.branches_eq ▸ hbranch)

/-- What is the same wherever the second is known, and known nowhere else, is
the same. -/
theorem eq_of_agrees {seen known : String → Option CommitId}
    (hnames : ∀ {name}, (seen name).isSome → (known name).isSome)
    (hagrees : ∀ {name commit}, known name = some commit →
      seen name = some commit) : seen = known := by
  funext name
  cases hname : known name with
  | some commit => exact hagrees hname
  | none =>
      rw [← Option.not_isSome_iff_eq_none]
      intro hseen
      simpa [hname] using hnames hseen

theorem Within.fetched (hwithin : clone.Within repository)
    (hfetch : Fetched repository clone next) :
    next.Fresh repository := by
  have hnext := hwithin.fetching hfetch.toFetching
  exact ⟨hnext, eq_of_agrees hnext.tracked hfetch.tracks,
    eq_of_agrees hnext.tags hfetch.tags_new⟩

namespace IsClone

variable {origin : String}

theorem branch_of (hclone : IsClone origin repository clone) {name : String}
    {commit : CommitId} (hbranch : clone.branches name = some commit) :
    repository.branches name = some commit := by
  rw [hclone.branches_eq] at hbranch
  split_ifs at hbranch
  exact hbranch

theorem fresh (hclone : IsClone origin repository clone) :
    clone.Fresh repository where
  branches := by
    intro name hname
    obtain ⟨commit, hcommit⟩ := Option.isSome_iff_exists.mp hname
    exact Option.isSome_of_mem (hclone.branch_of hcommit)
  tracked := by
    rw [hclone.tracked_eq]
    exact id
  tags := by
    rw [hclone.tags_eq]
    exact id
  commits := hclone.commits_of
  tracked_eq := hclone.tracked_eq
  tags_eq := hclone.tags_eq

theorem follows (hclone : IsClone origin repository clone) :
    Follows repository (empty origin) clone where
  origin_eq := hclone.origin_eq
  keeps hbranch := by cases hbranch
  starts hbranch := .inr (hclone.branch_of hbranch)

end IsClone

namespace Fresh

variable {ref : String}

theorem checkout (hfresh : clone.Fresh repository)
    (hcheckout : clone.checkout? ref = some next) :
    next.Fresh repository ∧ Follows repository clone next := by
  unfold checkout? at hcheckout
  split_ifs at hcheckout with hown htracked
  · cases hcheckout
    exact ⟨{ hfresh with }, rfl, id, .inl⟩
  · cases hcheckout
    refine ⟨{ hfresh with branches := ?_ }, rfl, ?_, ?_⟩
    · intro name hname
      rcases eq_or_ne name ref with rfl | hne
      · exact hfresh.tracked htracked
      · have hold : (clone.branches name).isSome := by
          simpa [Function.update_of_ne hne] using hname
        exact hfresh.branches hold
    · intro name commit hbranch
      have hne : name ≠ ref := by
        rintro rfl
        simp [hbranch] at hown
      simpa [Function.update_of_ne hne] using hbranch
    · intro name commit hbranch
      rcases eq_or_ne name ref with rfl | hne
      · right
        simpa [hfresh.tracked_eq] using hbranch
      · left
        simpa [Function.update_of_ne hne] using hbranch
  · obtain ⟨commit, -, rfl⟩ := Option.map_eq_some_iff.mp hcheckout
    exact ⟨{ hfresh with }, rfl, id, .inl⟩

/-- A reference for which the clone has no branch of its own names what it
names in the repository. -/
theorem lookup_of_checkout (hfresh : clone.Fresh repository)
    (hcheckout : clone.checkout? ref = some next) {commit : CommitId}
    (hhead : next.headCommit? = some commit) :
    (clone.branches ref).or (repository.commitOf ref) = some commit := by
  rw [headCommit?_checkout? hcheckout, hfresh.tracked_eq,
    hfresh.tags_eq] at hhead
  unfold Repository.commitOf
  cases hown : clone.branches ref with
  | some own => simpa [hown] using hhead
  | none =>
      cases hbranch : repository.branches ref with
      | some branch => simpa [hown, hbranch] using hhead
      | none =>
          cases htag : repository.tags ref with
          | some tag => simpa [hown, hbranch, htag] using hhead
          | none =>
              have hcommit : clone.commits ref = some commit := by
                simpa [hown, hbranch, htag] using hhead
              simpa using hfresh.commits hcommit

end Fresh
end Clone

/-! ## A clone in its surroundings -/

/-- The repositories there are, and the clone at a path. -/
structure World where
  repositories : String → Repository
  clone : Option Clone

namespace World

variable {world after : World} {uri : String}

/-- The clone into which a repository is brought. -/
def base (world : World) (uri : String) : Clone :=
  world.clone.getD (.empty uri)

/-- The repository that a checkout asks. -/
def upstream (world : World) (uri : String) : Repository :=
  world.repositories (world.base uri).origin

/-- Where a checkout leaves the head. -/
def destination (world : World) (uri ref : String) : Option CommitId :=
  ((world.base uri).branches ref).or ((world.upstream uri).commitOf ref)

/-- The clone knows nothing that its repository does not know. -/
def Sound (world : World) : Prop :=
  ∀ clone, world.clone = some clone →
    clone.Within (world.repositories clone.origin)

/-- Commits were added to repositories, and the clone stayed as it was. -/
structure Grows (world after : World) : Prop where
  clone_eq : after.clone = world.clone
  repositories : ∀ uri, (world.repositories uri).Grows (after.repositories uri)

/-- A world that a checkout may leave behind, whether it succeeds or fails. -/
structure Reaches (uri : String) (world after : World) : Prop where
  repositories_eq : after.repositories = world.repositories
  stays : world.clone.isSome → after.clone.isSome
  follows : ∀ {clone}, after.clone = some clone →
    Clone.Follows (world.upstream uri) (world.base uri) clone ∧
      clone.Within (world.upstream uri)

theorem base_of_clone {clone : Clone} (hclone : world.clone = some clone) :
    world.base uri = clone := by
  simp [base, hclone]

theorem base_of_none (hclone : world.clone = none) :
    world.base uri = .empty uri := by
  simp [base, hclone]

theorem upstream_of_clone {clone : Clone} (hclone : world.clone = some clone) :
    world.upstream uri = world.repositories clone.origin := by
  rw [upstream, base_of_clone hclone]

theorem upstream_of_none (hclone : world.clone = none) :
    world.upstream uri = world.repositories uri := by
  rw [upstream, base_of_none hclone]
  rfl

theorem Sound.base_within (hsound : world.Sound) (uri : String) :
    (world.base uri).Within (world.upstream uri) := by
  cases hclone : world.clone with
  | none =>
      rw [base_of_none hclone]
      exact Clone.within_empty _ _
  | some clone =>
      rw [upstream_of_clone hclone, base_of_clone hclone]
      exact hsound clone hclone

theorem Sound.grows (hsound : world.Sound) (hgrows : world.Grows after) :
    after.Sound := by
  intro clone hclone
  rw [hgrows.clone_eq] at hclone
  exact (hsound clone hclone).grows (hgrows.repositories _)

theorem Reaches.sound (hreaches : world.Reaches uri after) : after.Sound := by
  intro clone hclone
  obtain ⟨hfollows, hwithin⟩ := hreaches.follows hclone
  rw [hreaches.repositories_eq, hfollows.origin_eq]
  exact hwithin

end World
end Reparse.Git
