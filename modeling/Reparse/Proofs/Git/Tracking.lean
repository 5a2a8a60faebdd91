import Reparse.Proofs.Git.Checkout
import Reparse.Proofs.Git.Repository
import Reparse.Proofs.Text.Utf8

/-!
# Where a checkout leaves the head

A client knows a clone only by the commands that it runs.  `Host.Tracks` says
what these do to the clone at a path, when they succeed and when they fail.
From that, a checkout that returns has its head at the branch of the name asked
for that the clone had of its own before, and else at what the reference names
in the repository from which the clone comes.  The repository that is asked for
counts where there is no clone yet.  A checkout that fails leaves a clone with
which the next can go on, or none.
-/

namespace Reparse.Git

open Files Text

/-! ## What an action ensures -/

namespace Action

variable {σ α β : Type}

/-- What holds after an action from a state: one condition when it returns,
another when it fails. -/
def Ensures (action : Action σ α) (state : σ) (returned : α → σ → Prop)
    (failed : σ → Prop) : Prop :=
  match action.runFrom state with
  | (.ok a, final) => returned a final
  | (.error _, final) => failed final

namespace Ensures

variable {action : Action σ α} {next : α → Action σ β} {state final : σ}
variable {failed : σ → Prop}
  {returned : α → σ → Prop} {last : β → σ → Prop}

theorem of_ok (hensures : action.Ensures state returned failed) {a : α}
    (hrun : action.runFrom state = (.ok a, final)) : returned a final := by
  unfold Ensures at hensures
  rwa [hrun] at hensures

/-- What holds in both cases holds of the state that is left. -/
theorem left {condition : σ → Prop}
    (hensures : action.Ensures state (fun _ => condition) condition) :
    condition (action.runFrom state).2 := by
  unfold Ensures at hensures
  rcases hrun : action.runFrom state with ⟨e | a, final⟩ <;>
    rwa [hrun] at hensures

theorem imp {returned' : α → σ → Prop} {failed' : σ → Prop}
    (hensures : action.Ensures state returned failed)
    (hreturned : ∀ a final, returned a final → returned' a final)
    (hfailed : ∀ final, failed final → failed' final) :
    action.Ensures state returned' failed' := by
  unfold Ensures at hensures ⊢
  rcases hrun : action.runFrom state with ⟨e | a, final⟩ <;>
    rw [hrun] at hensures
  · exact hfailed final hensures
  · exact hreturned a final hensures

theorem pure {a : α} (hstate : returned a state) :
    Ensures (pure a : Action σ α) state returned failed :=
  hstate

theorem throw {e : GitError} (hstate : failed state) :
    Ensures (throw e : Action σ α) state returned failed :=
  hstate

theorem bind (haction : action.Ensures state returned failed)
    (hnext : ∀ a middle, returned a middle →
      (next a).Ensures middle last failed) :
    Ensures (action >>= next) state last failed := by
  unfold Ensures at haction
  rcases hrun : action.runFrom state with ⟨e | a, middle⟩ <;>
    rw [hrun] at haction
  · unfold Ensures
    rwa [runFrom_bind_of_error hrun]
  · have hlast := hnext a middle haction
    unfold Ensures at hlast ⊢
    rwa [runFrom_bind_of_ok hrun]

end Ensures
end Action

/-! ## Hosts with a clone at a path -/

/-- The repositories are these, and the clone meets a condition. -/
def World.Holds (world : World) (repositories : String → Repository)
    (condition : Clone → Prop) : Prop :=
  world.repositories = repositories ∧ ∃ clone, world.clone = some clone ∧
    condition clone

theorem World.Holds.imp {world : World} {repositories : String → Repository}
    {condition condition' : Clone → Prop}
    (hholds : world.Holds repositories condition)
    (himp : ∀ clone, condition clone → condition' clone) :
    world.Holds repositories condition' := by
  obtain ⟨hrepositories, clone, hclone, hcondition⟩ := hholds
  exact ⟨hrepositories, clone, hclone, himp clone hcondition⟩

theorem Command.isCommand (command : Command) : IsCommand command.args := by
  cases command with
  | fetch => exact .fetch
  | clean => exact .clean
  | checkout ref => exact .checkout ref
  | reset => exact .reset
  | head => exact .head

namespace Host

variable {σ : Type}

/-- The git of a host works on clones, and `view` shows the clone at a path. -/
structure Tracks (host : Host σ) (path : Path) (view : σ → World) : Prop where
  isThere_of_clone :
    ∀ {state}, (view state).clone.isSome → host.isThere state path = true
  makeFolders_view :
    ∀ {state parent}, view (host.makeFolders state parent).2 = view state
  /-- A client gives nothing to a repository. -/
  run_repositories : ∀ {state dir args}, IsCommand args →
    (view (host.run state dir args).2).repositories = (view state).repositories
  clone_ok : ∀ {state uri name}, path.fileName? = some name →
    (view state).clone = none →
    succeeded (host.run state (cloneParent path) ["clone", uri, name]).1 =
      true →
    ∃ clone,
      (view (host.run state (cloneParent path) ["clone", uri, name]).2).clone =
        some clone ∧
      clone.IsClone uri ((view state).repositories uri)
  clone_failed : ∀ {state uri name}, (view state).clone = none →
    succeeded (host.run state (cloneParent path) ["clone", uri, name]).1 =
      false →
    (view (host.run state (cloneParent path) ["clone", uri, name]).2).clone =
      none
  command_ok : ∀ {state clone command}, (view state).clone = some clone →
    succeeded (host.run state path (Command.args command)).1 = true →
    ∃ next, (view (host.run state path command.args).2).clone = some next ∧
      clone.Does ((view state).repositories clone.origin) command next
  command_failed : ∀ {state clone command}, (view state).clone = some clone →
    succeeded (host.run state path (Command.args command)).1 = false →
    ∃ next, (view (host.run state path command.args).2).clone = some next ∧
      clone.Begins ((view state).repositories clone.origin) command next
  /-- Commands that run in a clone fail where there is none. -/
  command_without : ∀ {state command}, (view state).clone = none →
    succeeded (host.run state path (Command.args command)).1 = false ∧
      (view (host.run state path command.args).2).clone = none
  head_shown : ∀ {state clone output}, (view state).clone = some clone →
    (host.run state path Command.head.args).1 = .ok output →
      output.success = true →
    firstLine? (Utf8.decodeLossy output.stdout) =
      clone.headCommit?.map CommitId.text

namespace Tracks

variable {host : Host σ} {path : Path} {view : σ → World} {state : σ}
variable {clone : Clone}
  {condition : Clone → Prop} {repositories : String → Repository}
    {uri ref : String}

/-! ## One command -/

/-- A command succeeds or fails, and `git` returns or fails with it. -/
theorem ensures_git {dir : Path} {args : List String}
    {returned : List Char → σ → Prop} {failed : σ → Prop}
    (hok : ∀ output, (host.run state dir args).1 = .ok output →
      output.success = true →
      returned (Utf8.decodeLossy output.stdout) (host.run state dir args).2)
    (hfailed : succeeded (host.run state dir args).1 = false →
      failed (host.run state dir args).2) :
    (host.git dir args).Ensures state returned failed := by
  have hgit : (host.git dir args).runFrom state =
      (interpret args (host.run state dir args).1,
        (host.run state dir args).2) := rfl
  unfold Action.Ensures
  rw [hgit]
  cases hinterpret : interpret args (host.run state dir args).1 with
  | error e => exact hfailed (interpret_eq_error hinterpret)
  | ok text =>
      have hsucceeded := interpret_eq_ok hinterpret
      cases hrun : (host.run state dir args).1 with
      | error e =>
          rw [hrun] at hsucceeded
          cases hsucceeded
      | ok output =>
          rw [hrun] at hsucceeded hinterpret
          have hsuccess : output.success = true := hsucceeded
          simp only [interpret, hsuccess, if_true,
            Except.ok.injEq] at hinterpret
          rw [← hinterpret]
          exact hok output hrun hsuccess

theorem ensures_command (htracks : host.Tracks path view) (command : Command)
    (hclone : (view state).clone = some clone) :
    (host.git path command.args).Ensures state
      (fun _ final => (view final).Holds (view state).repositories
        (clone.Does ((view state).repositories clone.origin) command))
      (fun final => (view final).Holds (view state).repositories
        (clone.Begins ((view state).repositories clone.origin) command)) := by
  apply ensures_git
  · intro output hrun hsuccess
    have hsucceeded :
        succeeded (host.run state path command.args).1 = true := by
      rw [hrun]
      exact hsuccess
    exact ⟨htracks.run_repositories command.isCommand,
      htracks.command_ok hclone hsucceeded⟩
  · intro hfailed
    exact ⟨htracks.run_repositories command.isCommand,
      htracks.command_failed hclone hfailed⟩

theorem ensures_idle (htracks : host.Tracks path view) {command : Command}
    (hidle : command.IsIdle)
    (hholds : (view state).Holds repositories condition) :
    (host.git path command.args).Ensures state
      (fun _ final => (view final).Holds repositories condition)
      (fun final => (view final).Holds repositories condition) := by
  obtain ⟨hrepositories, clone, hclone, hcondition⟩ := hholds
  apply (htracks.ensures_command command hclone).imp
  · intro _ final hfinal
    rw [hrepositories] at hfinal
    exact hfinal.imp fun next hdoes =>
      Clone.eq_of_does_idle hidle hdoes ▸ hcondition
  · intro final hfinal
    rw [hrepositories] at hfinal
    exact hfinal.imp fun next hbegins =>
      Clone.eq_of_begins_idle hidle hbegins ▸ hcondition

theorem ensures_idleAll (htracks : host.Tracks path view)
    (commands : List Command) (hidle : ∀ command ∈ commands, command.IsIdle)
    (hholds : (view state).Holds repositories condition) :
    (host.gitAll path (commands.map Command.args)).Ensures state
      (fun _ final => (view final).Holds repositories condition)
      (fun final => (view final).Holds repositories condition) := by
  induction commands generalizing state with
  | nil => exact .pure hholds
  | cons command commands ih =>
      apply (htracks.ensures_idle (hidle command (List.mem_cons_self ..))
        hholds).bind
      intro _ middle hmiddle
      exact ih (fun other hother =>
        hidle other (List.mem_cons_of_mem _ hother)) hmiddle

theorem ensures_showHead (htracks : host.Tracks path view)
    (hclone : (view state).clone = some clone) :
    (host.git path Command.head.args).Ensures state
      (fun text final =>
        (view final).Holds (view state).repositories
          (fun next => next = clone) ∧
        firstLine? text = clone.headCommit?.map CommitId.text)
      (fun final =>
        (view final).Holds (view state).repositories
          fun next => next = clone) := by
  have hrepositories :
      (view (host.run state path Command.head.args).2).repositories =
      (view state).repositories := htracks.run_repositories .head
  apply ensures_git
  · intro output hrun hsuccess
    have hsucceeded :
        succeeded (host.run state path Command.head.args).1 = true := by
      rw [hrun]
      exact hsuccess
    have hnext := htracks.command_ok hclone hsucceeded
    exact ⟨⟨hrepositories, hnext⟩, htracks.head_shown hclone hrun hsuccess⟩
  · intro hfailed
    exact ⟨hrepositories, htracks.command_failed hclone hfailed⟩

theorem ensures_head (htracks : host.Tracks path view)
    (hholds : (view state).Holds repositories condition) :
    (host.head path).Ensures state
      (fun text final => (view final).Holds repositories fun clone =>
        condition clone ∧ ∃ commit, clone.headCommit? = some commit ∧
          text = commit.text)
      (fun final => (view final).Holds repositories condition) := by
  obtain ⟨rfl, clone, hclone, hcondition⟩ := hholds
  have hshown := (htracks.ensures_showHead hclone).imp (fun _ _ => id)
    fun final hfinal => hfinal.imp fun next hnext =>
      (hnext ▸ hcondition : condition next)
  apply hshown.bind
  intro text middle hmiddle
  obtain ⟨hholds, hline⟩ := hmiddle
  cases hcommit : clone.headCommit? with
  | none =>
      simp only [hcommit, Option.map_none] at hline
      simp only [hline]
      exact .throw (hholds.imp fun next hnext => hnext ▸ hcondition)
  | some commit =>
      simp only [hcommit, Option.map_some] at hline
      simp only [hline]
      apply Action.Ensures.pure
      exact hholds.imp fun next hnext =>
        hnext ▸ ⟨hcondition, commit, hcommit, rfl⟩

/-! ## One checkout -/

/-- A world in which the repository was just brought into the clone. -/
def Brought (uri : String) (world after : World) : Prop :=
  after.Holds world.repositories fun clone =>
    clone.Fresh (world.upstream uri) ∧
      Clone.Follows (world.upstream uri) (world.base uri) clone

theorem reaches_of_holds {world after : World}
    (hholds : after.Holds world.repositories fun clone =>
      clone.Within (world.upstream uri) ∧
        Clone.Follows (world.upstream uri) (world.base uri) clone) :
    world.Reaches uri after := by
  obtain ⟨hrepositories, clone, hclone, hwithin, hfollows⟩ := hholds
  refine ⟨hrepositories, fun _ => Option.isSome_of_mem hclone, ?_⟩
  intro other hother
  obtain rfl : clone = other := Option.some.inj (hclone.symm.trans hother)
  exact ⟨hfollows, hwithin⟩

theorem reaches_of_none {world after : World}
    (hrepositories : after.repositories = world.repositories)
    (hworld : world.clone = none) (hafter : after.clone = none) :
    world.Reaches uri after := by
  refine ⟨hrepositories, by simp [hworld], ?_⟩
  intro clone hclone
  rw [hafter] at hclone
  cases hclone

theorem ensures_update_of_none (htracks : host.Tracks path view)
    (hclone : (view state).clone = none) :
    (host.update path).Ensures state (fun _ _ => False)
      (fun final => (view state).Reaches uri (view final)) := by
  obtain ⟨hfails, hnone⟩ :
      succeeded (host.run state path Command.fetch.args).1 = false ∧
      (view (host.run state path Command.fetch.args).2).clone = none :=
    htracks.command_without hclone
  have hfetch :
      (host.git path Command.fetch.args).Ensures state (fun _ _ => False)
      (fun final => (view state).Reaches uri (view final)) := by
    apply ensures_git
    · intro output hrun hsuccess
      rw [hrun] at hfails
      exact absurd (hfails.symm.trans hsuccess) Bool.false_ne_true
    · intro _
      exact reaches_of_none (htracks.run_repositories .fetch) hclone hnone
  apply hfetch.bind
  intro _ _ hfalse
  exact hfalse.elim

theorem ensures_fetch (htracks : host.Tracks path view)
    (hsound : (view state).Sound) (hclone : (view state).clone = some clone) :
    (host.git path Command.fetch.args).Ensures state
      (fun _ final => Brought uri (view state) (view final))
      (fun final => (view state).Reaches uri (view final)) := by
  have hwithin := hsound clone hclone
  have hupstream :
      (view state).upstream uri = (view state).repositories clone.origin :=
    World.upstream_of_clone hclone
  have hbase : (view state).base uri = clone := World.base_of_clone hclone
  apply (htracks.ensures_command .fetch hclone).imp
  · intro _ final hfinal
    unfold Brought
    rw [hupstream, hbase]
    exact hfinal.imp fun next hfetched =>
      ⟨hwithin.fetched hfetched, hfetched.toFetching.follows⟩
  · intro final hfinal
    apply reaches_of_holds
    rw [hupstream, hbase]
    exact hfinal.imp fun next hfetching =>
      ⟨hwithin.fetching hfetching, hfetching.follows⟩

theorem ensures_update (htracks : host.Tracks path view)
    (hsound : (view state).Sound) :
    (host.update path).Ensures state
      (fun _ final => Brought uri (view state) (view final))
      (fun final => (view state).Reaches uri (view final)) := by
  cases hclone : (view state).clone with
  | none =>
      apply (htracks.ensures_update_of_none hclone).imp
      · intro _ _ hfalse
        exact hfalse.elim
      · exact fun _ => id
  | some clone =>
      apply (htracks.ensures_fetch hsound hclone).bind
      intro _ middle hmiddle
      apply (htracks.ensures_idleAll [.clean] (by simp [Command.IsIdle])
        hmiddle).imp
      · exact fun _ _ => id
      · intro final hfinal
        exact reaches_of_holds (hfinal.imp fun next hnext =>
          ⟨hnext.1.toWithin, hnext.2⟩)

theorem ensures_gitClone (htracks : host.Tracks path view)
    (hclone : (view state).clone = none) {name : String}
    (hname : path.fileName? = some name) :
    (host.git (cloneParent path) ["clone", uri, name]).Ensures state
      (fun _ final => Brought uri (view state) (view final))
      (fun final => (view state).Reaches uri (view final)) := by
  have hrepositories :
      (view
        (host.run state (cloneParent path)
          ["clone", uri, name]).2).repositories =
        (view state).repositories := htracks.run_repositories (.clone uri name)
  apply ensures_git
  · intro output hrun hsuccess
    have hsucceeded :
        succeeded (host.run state (cloneParent path) ["clone", uri, name]).1 =
          true := by
      rw [hrun]
      exact hsuccess
    obtain ⟨clone, hcloned, hisClone⟩ :=
      htracks.clone_ok hname hclone hsucceeded
    refine ⟨hrepositories, clone, hcloned, ?_⟩
    rw [World.upstream_of_none hclone, World.base_of_none hclone]
    exact ⟨hisClone.fresh, hisClone.follows⟩
  · intro hfailed
    exact reaches_of_none hrepositories hclone
      (htracks.clone_failed hclone hfailed)

theorem ensures_clone (htracks : host.Tracks path view)
    (hclone : (view state).clone = none) :
    (host.clone uri path).Ensures state
      (fun _ final => Brought uri (view state) (view final))
      (fun final => (view state).Reaches uri (view final)) := by
  refine Action.Ensures.bind
    (?makesFolders : Action.Ensures _ state
      (fun _ final => view final = view state) _) ?clones
  case makesFolders => exact htracks.makeFolders_view
  case clones =>
    intro made middle hmiddle
    rw [← hmiddle] at hclone ⊢
    have hstill : (view middle).Reaches uri (view middle) :=
      reaches_of_none rfl hclone hclone
    cases made with
    | error e => exact .throw hstill
    | ok _ =>
        cases hname : path.fileName? with
        | none => exact .throw hstill
        | some name =>
            apply (htracks.ensures_gitClone hclone hname).bind
            intro _ final hfinal
            exact .pure hfinal

theorem ensures_bring (htracks : host.Tracks path view)
    (hsound : (view state).Sound) :
    (host.bring uri path).Ensures state
      (fun _ final => Brought uri (view state) (view final))
      (fun final => (view state).Reaches uri (view final)) := by
  have hget :
      (get : Action σ σ).Ensures state
        (fun found final => found = state ∧ final = state)
        (fun final => (view state).Reaches uri (view final)) := ⟨rfl, rfl⟩
  apply hget.bind
  rintro _ _ ⟨rfl, rfl⟩
  split_ifs with hthere
  · exact htracks.ensures_update hsound
  · apply htracks.ensures_clone
    rw [← Option.not_isSome_iff_eq_none]
    exact fun hclone => hthere (htracks.isThere_of_clone hclone)

theorem ensures_settle (htracks : host.Tracks path view)
    (hclone : (view state).clone = some clone) :
    (host.settle ref path).Ensures state
      (fun snapshot final =>
        (view final).Holds (view state).repositories fun next =>
          clone.checkout? ref = some next ∧
            ∃ commit, next.headCommit? = some commit ∧
              snapshot.head = commit.text)
      (fun final => (view final).Holds (view state).repositories fun next =>
        next = clone ∨ clone.checkout? ref = some next) := by
  have hall :
      (host.gitAll path [["checkout", "--force", ref], ["reset", "--hard"],
        cleanArgs]).Ensures state
        (fun _ final =>
          (view final).Holds (view state).repositories fun next =>
            clone.checkout? ref = some next)
        (fun final =>
          (view final).Holds (view state).repositories fun next =>
            next = clone ∨ clone.checkout? ref = some next) := by
    apply (htracks.ensures_command (.checkout ref) hclone).bind
    intro _ middle hmiddle
    apply (htracks.ensures_idleAll [.reset, .clean]
      (by simp [Command.IsIdle]) hmiddle).imp
    · intro _ final hfinal
      exact hfinal
    · intro final hfinal
      exact hfinal.imp fun next hnext => .inr hnext
  apply hall.bind
  intro _ settled hsettled
  have hhead := (htracks.ensures_head hsettled).imp (fun _ _ => id)
    fun final hfinal =>
      hfinal.imp fun next (hnext : clone.checkout? ref = some next) =>
        (.inr hnext : next = clone ∨ clone.checkout? ref = some next)
  apply hhead.bind
  intro text final hfinal
  exact .pure hfinal

/-- What a checkout makes of a clone, and where the head of the clone is when
it returns. -/
theorem ensures_checkout (htracks : host.Tracks path view)
    (hsound : (view state).Sound) (uri ref : String) :
    (host.checkout uri ref path).Ensures state
      (fun snapshot final =>
        (view state).Reaches uri (view final) ∧ (view final).clone.isSome ∧
        ∃ commit, (view state).destination uri ref = some commit ∧
          snapshot.head = commit.text)
      (fun final => (view state).Reaches uri (view final)) := by
  rw [checkout_eq]
  apply (htracks.ensures_bring hsound).bind
  intro _ middle hmiddle
  obtain ⟨hrepositories, clone, hclone, hfresh, hfollows⟩ := hmiddle
  have hreaches :
      ∀ {next final}, (view final).repositories = (view middle).repositories →
      (view final).clone = some next →
        (next = clone ∨ clone.checkout? ref = some next) →
      (view state).Reaches uri (view final) := by
    intro next final hfinal hnext hcases
    apply reaches_of_holds
    refine ⟨hfinal.trans hrepositories, next, hnext, ?_⟩
    rcases hcases with rfl | hcheckout
    · exact ⟨hfresh.toWithin, hfollows⟩
    · obtain ⟨hfresh', hfollows'⟩ := hfresh.checkout hcheckout
      exact ⟨hfresh'.toWithin, hfollows.trans hfollows'⟩
  apply (htracks.ensures_settle hclone).imp
  · intro snapshot final hfinal
    obtain ⟨hfinal, next, hnext, hcheckout, commit, hcommit, hhead⟩ := hfinal
    have hlookup := hfresh.lookup_of_checkout hcheckout hcommit
    rw [hfollows.lookup_eq] at hlookup
    have hreached := hreaches hfinal hnext (.inr hcheckout)
    exact ⟨hreached, Option.isSome_of_mem hnext, commit, hlookup, hhead⟩
  · intro final hfinal
    obtain ⟨hfinal, next, hnext, hcases⟩ := hfinal
    exact hreaches hfinal hnext hcases

end Tracks
end Host
end Reparse.Git
