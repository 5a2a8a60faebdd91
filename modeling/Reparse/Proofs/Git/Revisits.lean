import Reparse.Proofs.Git.Depot

/-!
# Visiting a clone again

Checkouts come back to one path while repositories grow.  The first one that
gets through makes a clone, and the others fetch into it, whatever repository
they ask for.  A branch that the clone has of its own was started by one visit,
where the branch of the cloned repository stood then, and no later visit moves
it.  So a branch is right on the visit that starts it, while tags and ids of
commits, which start nothing, are right on every visit that asks for the cloned
repository.
-/

namespace Reparse.Git

open Files Text

/-! ## Runs of checkouts -/

/-- Time goes by, and then a reference of a repository is asked for. -/
structure Turn (σ : Type) where
  pass : σ → σ
  uri : String
  ref : String

/-- A turn and the state in which its checkout finds the host. -/
structure Visit (σ : Type) extends Turn σ where
  found : σ

variable {σ β : Type} (host : Host σ) (path : Path) (view : σ → World)

/-- Repositories grow while the time of a turn goes by, and the clone stays as
it is. -/
def Turn.Grows (turn : Turn σ) : Prop :=
  ∀ state, (view state).Grows (view (turn.pass state))

namespace Visit

variable (visit : Visit σ)

/-- What the checkout returns, and the state in which it leaves the host. -/
def outcome : Except GitError Snapshot × σ :=
  (host.checkout visit.uri visit.ref path).runFrom visit.found

/-- The commit that the reference asked for names in a repository at the time
of the visit. -/
def commitIn (uri ref : String) : Option CommitId :=
  ((view visit.found).repositories uri).commitOf ref

def Exact (snapshot : Snapshot) : Prop :=
  ∃ commit, visit.commitIn view visit.uri visit.ref = some commit ∧
    snapshot.head = commit.text

/-- Something is not there before the visit, and it is there afterwards. -/
def Brings (seen : World → Option β) : Prop :=
  seen (view visit.found) = none ∧
    (seen (view (visit.outcome host path).2)).isSome

end Visit

/-- The checkouts of turns, one after another. -/
def visits : List (Turn σ) → σ → List (Visit σ)
  | [], _ => []
  | turn :: turns, state =>
    let visit : Visit σ := ⟨turn, turn.pass state⟩
    visit :: visits turns (visit.outcome host path).2

/-! ## What lasts -/

namespace World

def origin? (world : World) : Option String :=
  world.clone.map Clone.origin

/-- A branch that the clone has of its own, with the origin of the clone. -/
def ownBranch? (name : String) (world : World) : Option (String × CommitId) :=
  world.clone.bind fun clone => (clone.branches name).map fun commit =>
    (clone.origin, commit)

theorem ownBranch?_eq (world : World) (uri name : String) :
    world.ownBranch? name =
      ((world.base uri).branches name).map fun commit =>
        ((world.base uri).origin, commit) := by
  unfold ownBranch?
  cases hclone : world.clone with
  | none =>
      rw [base_of_none hclone]
      rfl
  | some clone =>
      rw [base_of_clone hclone]
      rfl

/-- Neither a growing repository nor a checkout changes what was once seen. -/
structure Lasting (seen : World → Option β) : Prop where
  grows : ∀ {world after}, World.Grows world after → seen after = seen world
  reaches : ∀ {world after uri x}, World.Reaches uri world after →
    seen world = some x →
    seen after = some x

theorem lasting_origin? : Lasting origin? where
  grows hgrows := by
    unfold origin?
    rw [hgrows.clone_eq]
  reaches := by
    intro world after uri origin hreaches hseen
    obtain ⟨clone, hclone, rfl⟩ := Option.map_eq_some_iff.mp hseen
    obtain ⟨next, hnext⟩ :=
      Option.isSome_iff_exists.mp
        (hreaches.stays (Option.isSome_of_mem hclone))
    have horigin := (hreaches.follows hnext).1.origin_eq
    rw [base_of_clone hclone] at horigin
    simp [origin?, hnext, horigin]

theorem lasting_ownBranch? (name : String) : Lasting (ownBranch? name) where
  grows hgrows := by
    unfold ownBranch?
    rw [hgrows.clone_eq]
  reaches := by
    intro world after uri branch hreaches hseen
    obtain ⟨clone, hclone, hbranch⟩ := Option.bind_eq_some_iff.mp hseen
    obtain ⟨commit, hcommit, rfl⟩ := Option.map_eq_some_iff.mp hbranch
    obtain ⟨next, hnext⟩ :=
      Option.isSome_iff_exists.mp
        (hreaches.stays (Option.isSome_of_mem hclone))
    have hfollows := (hreaches.follows hnext).1
    rw [base_of_clone hclone] at hfollows
    simp [ownBranch?, hnext, hfollows.keeps hcommit, hfollows.origin_eq]

end World

section Runs

variable {host path view} {turns : List (Turn σ)} {state : σ} {visit : Visit σ}
  {earlier later : List (Visit σ)} {seen : World → Option β}

theorem reaches_outcome (htracks : host.Tracks path view) (visit : Visit σ)
    (hsound : (view visit.found).Sound) :
    (view visit.found).Reaches visit.uri
      (view (visit.outcome host path).2) := by
  have hcheckout := htracks.ensures_checkout hsound visit.uri visit.ref
  exact (hcheckout.imp (fun _ _ hreturned => hreturned.1) fun _ => id).left

/-- A run of turns may begin: repositories only grow, and a clone that is there
is sound. -/
structure Ready (view : σ → World) (turns : List (Turn σ)) (state : σ) :
    Prop where
  grows : ∀ turn ∈ turns, turn.Grows view
  sound : (view state).Sound

namespace Ready

variable {turn : Turn σ}

theorem pass (hready : Ready view (turn :: turns) state) :
    (view state).Grows (view (turn.pass state)) :=
  hready.grows turn (List.mem_cons_self ..) state

theorem reaches (hready : Ready view (turn :: turns) state)
    (htracks : host.Tracks path view) :
    (view (turn.pass state)).Reaches turn.uri
      (view (Visit.outcome host path ⟨turn, turn.pass state⟩).2) :=
  reaches_outcome htracks ⟨turn, turn.pass state⟩
    (hready.sound.grows hready.pass)

theorem next (hready : Ready view (turn :: turns) state)
    (htracks : host.Tracks path view) :
    Ready view turns (Visit.outcome host path ⟨turn, turn.pass state⟩).2 :=
  ⟨fun other hother => hready.grows other (List.mem_cons_of_mem _ hother),
    (hready.reaches htracks).sound⟩

end Ready

theorem mem_visits
    (hvisits : visits host path turns state = earlier ++ visit :: later) :
    visit ∈ visits host path turns state := by
  simp [hvisits]

theorem sound_found (htracks : host.Tracks path view)
    (hready : Ready view turns state)
    (hvisit : visit ∈ visits host path turns state) :
    (view visit.found).Sound := by
  induction turns generalizing state with
  | nil => cases hvisit
  | cons turn turns ih =>
      rcases List.mem_cons.mp hvisit with rfl | hvisit
      · exact hready.sound.grows hready.pass
      · exact ih (hready.next htracks) hvisit

/-- What is there at the start is there on every visit. -/
theorem seen_found (htracks : host.Tracks path view)
    (hready : Ready view turns state) (hlasting : World.Lasting seen) {x : β}
    (hseen : seen (view state) = some x)
    (hvisit : visit ∈ visits host path turns state) :
    seen (view visit.found) = some x := by
  induction turns generalizing state with
  | nil => cases hvisit
  | cons turn turns ih =>
      have hfound : seen (view (turn.pass state)) = some x := by
        rw [hlasting.grows hready.pass]
        exact hseen
      rcases List.mem_cons.mp hvisit with rfl | hvisit
      · exact hfound
      · exact ih (hready.next htracks)
          (hlasting.reaches (hready.reaches htracks) hfound) hvisit

/-- What a visit finds and was not there at the start was brought by a visit
before. -/
theorem exists_bringer (htracks : host.Tracks path view)
    (hready : Ready view turns state) (hlasting : World.Lasting seen) {x : β}
    (hstart : seen (view state) = none)
    (hvisits : visits host path turns state = earlier ++ visit :: later)
    (hfound : seen (view visit.found) = some x) :
    ∃ bringer ∈ earlier, seen (view bringer.found) = none ∧
      seen (view (bringer.outcome host path).2) = some x := by
  induction turns generalizing state earlier with
  | nil => simp [visits] at hvisits
  | cons turn turns ih =>
      have hfirst : seen (view (turn.pass state)) = none := by
        rw [hlasting.grows hready.pass]
        exact hstart
      cases earlier with
      | nil =>
          obtain ⟨rfl, -⟩ := List.cons.inj hvisits
          rw [hfirst] at hfound
          cases hfound
      | cons first earlier =>
          obtain ⟨rfl, hrest⟩ := List.cons.inj hvisits
          have hnext := hready.next htracks
          cases hleft : seen
            (view (Visit.outcome host path ⟨turn, turn.pass state⟩).2) with
          | none =>
              obtain ⟨bringer, hbringer, hbrings⟩ := ih hnext hleft hrest
              exact ⟨bringer, List.mem_cons_of_mem _ hbringer, hbrings⟩
          | some y =>
              have hsame := seen_found htracks hnext hlasting hleft
                (mem_visits hrest)
              rw [hfound] at hsame
              exact ⟨_, List.mem_cons_self .., hfirst, hleft.trans hsame.symm⟩

/-- What a visit does not find was brought by no visit before. -/
theorem not_brings_of_unseen (htracks : host.Tracks path view)
    (hready : Ready view turns state) (hlasting : World.Lasting seen)
    (hvisits : visits host path turns state = earlier ++ visit :: later)
    (hfound : seen (view visit.found) = none) :
    ∀ other ∈ earlier, ¬ other.Brings host path view seen := by
  induction turns generalizing state earlier with
  | nil => simp [visits] at hvisits
  | cons turn turns ih =>
      cases earlier with
      | nil => simp
      | cons first earlier =>
          obtain ⟨rfl, hrest⟩ := List.cons.inj hvisits
          have hnext := hready.next htracks
          intro other hother hbrings
          rcases List.mem_cons.mp hother with rfl | hother
          · obtain ⟨x, hleft⟩ := Option.isSome_iff_exists.mp hbrings.2
            have hseen := seen_found htracks hnext hlasting hleft
              (mem_visits hrest)
            rw [hfound] at hseen
            cases hseen
          · exact ih hnext hrest other hother hbrings

/-! ## Where things come from -/

/-- A visit that makes the clone makes it from the repository that it asks
for. -/
theorem origin_of_brings (htracks : host.Tracks path view)
    (hsound : (view visit.found).Sound)
    (habsent : (view visit.found).origin? = none) {origin : String}
    (hmade : (view (visit.outcome host path).2).origin? = some origin) :
    origin = visit.uri := by
  obtain ⟨clone, hclone, rfl⟩ := Option.map_eq_some_iff.mp hmade
  have hfollows := ((reaches_outcome htracks visit hsound).follows hclone).1
  have hnone : (view visit.found).clone = none :=
    Option.map_eq_none_iff.mp habsent
  rw [World.base_of_none hnone] at hfollows
  exact hfollows.origin_eq

/-- A visit that starts a branch starts it where the branch of the cloned
repository stands. -/
theorem branch_of_brings (htracks : host.Tracks path view)
    (hsound : (view visit.found).Sound) {name origin : String}
    {commit : CommitId} (habsent : (view visit.found).ownBranch? name = none)
    (hmade : (view (visit.outcome host path).2).ownBranch? name =
      some (origin, commit)) :
    visit.commitIn view origin name = some commit := by
  obtain ⟨clone, hclone, hbranch⟩ := Option.bind_eq_some_iff.mp hmade
  obtain ⟨commit', hcommit, hpair⟩ := Option.map_eq_some_iff.mp hbranch
  cases hpair
  have hfollows := ((reaches_outcome htracks visit hsound).follows hclone).1
  have hbase : ((view visit.found).base visit.uri).branches name = none := by
    rw [World.ownBranch?_eq _ visit.uri] at habsent
    exact Option.map_eq_none_iff.mp habsent
  have hupstream :
      ((view visit.found).upstream visit.uri).branches name = some commit := by
    simpa [hbase] using hfollows.starts hcommit
  rw [World.upstream, ← hfollows.origin_eq] at hupstream
  simp [Visit.commitIn, Repository.commitOf, hupstream]

/-- The clone that a visit finds or makes comes from the repository that some
visit cloned. -/
theorem exists_cloner (htracks : host.Tracks path view)
    (hready : Ready view turns state) (habsent : (view state).clone = none)
    (hvisits : visits host path turns state = earlier ++ visit :: later)
    (hleft : (view (visit.outcome host path).2).clone.isSome) :
    ∃ cloner ∈ earlier ++ [visit], cloner.Brings host path view World.origin? ∧
      ((view visit.found).base visit.uri).origin = cloner.uri := by
  cases hfound : (view visit.found).clone with
  | none =>
      refine ⟨visit, by simp, ⟨?_, ?_⟩, ?_⟩
      · simp [World.origin?, hfound]
      · simpa [World.origin?] using hleft
      · rw [World.base_of_none hfound]
        rfl
  | some clone =>
      have hstart : (view state).origin? = none := by
        simp [World.origin?, habsent]
      have hseen : (view visit.found).origin? = some clone.origin := by
        simp [World.origin?, hfound]
      obtain ⟨cloner, hcloner, hunseen, hmade⟩ :=
        exists_bringer htracks hready World.lasting_origin? hstart
          hvisits hseen
      have hsound' : (view cloner.found).Sound :=
        sound_found htracks hready (hvisits ▸ List.mem_append_left _ hcloner)
      refine ⟨cloner, List.mem_append_left _ hcloner,
        ⟨hunseen, by simp [hmade]⟩, ?_⟩
      rw [World.base_of_clone hfound]
      exact origin_of_brings htracks hsound' hunseen hmade

/-- Where a checkout leaves the head was named by its reference on some
visit. -/
theorem exists_source (htracks : host.Tracks path view)
    (hready : Ready view turns state) (habsent : (view state).clone = none)
    (hvisits : visits host path turns state = earlier ++ visit :: later) :
    ∃ source : Visit σ,
      (source ∈ earlier ∧
        source.Brings host path view (World.ownBranch? visit.ref) ∧
          (((view visit.found).base visit.uri).branches visit.ref).isSome ∨
        source = visit ∧
          ∀ other ∈ earlier,
            ¬ other.Brings host path view (World.ownBranch? visit.ref)) ∧
      source.commitIn view ((view visit.found).base visit.uri).origin
        visit.ref =
        (view visit.found).destination visit.uri visit.ref := by
  have hown := World.ownBranch?_eq (view visit.found) visit.uri visit.ref
  cases hbranch : ((view visit.found).base visit.uri).branches visit.ref with
  | none =>
      rw [hbranch] at hown
      have hnone := not_brings_of_unseen htracks hready
        (World.lasting_ownBranch? visit.ref) hvisits hown
      refine ⟨visit, .inr ⟨rfl, hnone⟩, ?_⟩
      simp [World.destination, hbranch, Visit.commitIn, World.upstream]
  | some commit =>
      rw [hbranch] at hown
      have hstart : (view state).ownBranch? visit.ref = none := by
        simp [World.ownBranch?, habsent]
      obtain ⟨source, hsource, hunseen, hmade⟩ := exists_bringer htracks hready
        (World.lasting_ownBranch? visit.ref) hstart hvisits hown
      have hsound' : (view source.found).Sound :=
        sound_found htracks hready (hvisits ▸ List.mem_append_left _ hsource)
      refine ⟨source, .inl ⟨hsource, ⟨hunseen, by simp [hmade]⟩, rfl⟩, ?_⟩
      rw [branch_of_brings htracks hsound' hunseen hmade]
      simp [World.destination, hbranch]

/-- Where the head is after a checkout that returns, in a run of checkouts on a
path without a clone at the start.  It is at the commit that the reference
named in the repository that was cloned.  It named it when a visit before
started a branch of that name, and now if there is no such visit.  So the head
is at the commit asked for if and only if both are the same; they are for tags
and ids of commits of the cloned repository. -/
theorem exact_iff_of_isOk {snapshot : Snapshot}
    (htracks : host.Tracks path view)
    (hgrows : ∀ turn ∈ turns, turn.Grows view)
    (habsent : (view state).clone = none)
    (hvisits : visits host path turns state = earlier ++ visit :: later)
    (hok : (visit.outcome host path).1 = .ok snapshot) :
    ∃ cloner ∈ earlier ++ [visit], cloner.Brings host path view World.origin? ∧
      ∃ source : Visit σ,
        (source ∈ earlier ∧
          source.Brings host path view (World.ownBranch? visit.ref) ∨
          source = visit ∧
            ∀ other ∈ earlier,
              ¬ other.Brings host path view (World.ownBranch? visit.ref)) ∧
        (∃ commit, source.commitIn view cloner.uri visit.ref = some commit ∧
          snapshot.head = commit.text) ∧
        (visit.Exact view snapshot ↔
          visit.commitIn view visit.uri visit.ref =
            source.commitIn view cloner.uri visit.ref) ∧
        (cloner.uri = visit.uri →
          ((view visit.found).repositories visit.uri).branches visit.ref =
            none →
          visit.Exact view snapshot) := by
  have hready : Ready view turns state := by
    refine ⟨hgrows, ?_⟩
    intro clone hclone
    rw [habsent] at hclone
    cases hclone
  have hfound : (view visit.found).Sound :=
    sound_found htracks hready (mem_visits hvisits)
  obtain ⟨-, hleft, commit, hdestination, hhead⟩ :=
    (htracks.ensures_checkout hfound visit.uri visit.ref).of_ok
      (Prod.ext hok rfl)
  obtain ⟨cloner, hcloner, hclones, horigin⟩ :=
    exists_cloner htracks hready habsent hvisits hleft
  obtain ⟨source, hsource, hnames⟩ :=
    exists_source htracks hready habsent hvisits
  rw [horigin, hdestination] at hnames
  have hexact : visit.Exact view snapshot ↔
      visit.commitIn view visit.uri visit.ref =
        source.commitIn view cloner.uri visit.ref := by
    rw [hnames]
    constructor
    · rintro ⟨asked, hasked, hhead'⟩
      rw [hasked, CommitId.eq_of_text (hhead'.symm.trans hhead)]
    · intro hsame
      exact ⟨commit, hsame, hhead⟩
  refine ⟨cloner, hcloner, hclones, source, ?_, ⟨commit, hnames, hhead⟩,
    hexact, ?_⟩
  · exact hsource.imp (fun hstarts => ⟨hstarts.1, hstarts.2.1⟩) id
  · intro huri hnone
    rcases hsource with ⟨-, -, hbranch⟩ | ⟨rfl, -⟩
    · have hupstream := (hfound.base_within visit.uri).branches hbranch
      rw [World.upstream, horigin, huri, hnone] at hupstream
      cases hupstream
    · rw [hexact, huri]

end Runs

/-! ## A branch that moved on -/

def firstCommit : CommitId :=
  ⟨"1111111111111111111111111111111111111111", by decide +kernel⟩

def secondCommit : CommitId :=
  ⟨"2222222222222222222222222222222222222222", by decide +kernel⟩

def sampleUri : String := "https://github.com/roundtrip/toy-examples.git"

def samplePath : Path := ⟨"work/toy-examples"⟩

def sampleRepository : Repository :=
  (⟨fun _ => none, fun _ => none, fun _ => none, "main"⟩ : Repository).push
    "main" firstCommit

def sampleDepot : Depot :=
  ⟨fun _ => sampleRepository, fun _ => none⟩

/-- The branch is asked for twice, and in between it gets a second commit. -/
def sampleTurns : List (Turn Depot) :=
  [⟨id, sampleUri, "main"⟩,
    ⟨fun depot => depot.push sampleUri "main" secondCommit, sampleUri, "main"⟩]

def firstVisit : Visit Depot :=
  ⟨⟨id, sampleUri, "main"⟩, sampleDepot⟩

def secondVisit : Visit Depot :=
  ⟨⟨fun depot => depot.push sampleUri "main" secondCommit, sampleUri, "main"⟩,
    (firstVisit.outcome Depot.host samplePath).2.push sampleUri "main"
      secondCommit⟩

theorem sampleTurns_grow :
    ∀ turn ∈ sampleTurns, turn.Grows (Depot.view samplePath) := by
  intro turn hturn state
  simp only [sampleTurns, List.mem_cons, List.not_mem_nil, or_false] at hturn
  rcases hturn with rfl | rfl
  · exact ⟨rfl, fun _ => .refl _⟩
  · exact Depot.grows_push samplePath state sampleUri "main" secondCommit

theorem visits_sampleTurns :
    visits Depot.host samplePath sampleTurns sampleDepot =
      [firstVisit] ++ secondVisit :: [] := by
  simp only [visits, sampleTurns, firstVisit, secondVisit, id,
    List.cons_append, List.nil_append]

theorem commitIn_firstVisit :
    firstVisit.commitIn (Depot.view samplePath) sampleUri "main" =
      some firstCommit :=
  Repository.commitOf_push _ "main" firstCommit

theorem commitIn_secondVisit :
    secondVisit.commitIn (Depot.view samplePath) sampleUri "main" =
      some secondCommit := by
  have hpushed :=
    Depot.repositories_push (firstVisit.outcome Depot.host samplePath).2
      sampleUri "main" secondCommit
  exact (congrArg (Repository.commitOf · "main") hpushed).trans
    (Repository.commitOf_push _ "main" secondCommit)

theorem firstVisit_brings :
    firstVisit.Brings Depot.host samplePath (Depot.view samplePath)
      (World.ownBranch? "main") :=
  ⟨rfl, by decide +kernel⟩

/-- The second visit returns the commit of the first, although the branch has
moved on. -/
theorem not_exact_secondVisit :
    visits Depot.host samplePath sampleTurns sampleDepot =
      [firstVisit] ++ secondVisit :: [] ∧
      secondVisit.commitIn (Depot.view samplePath) sampleUri "main" =
        some secondCommit ∧
      ∃ snapshot, (secondVisit.outcome Depot.host samplePath).1 =
        .ok snapshot ∧
        snapshot.head = firstCommit.text ∧
        ¬ secondVisit.Exact (Depot.view samplePath) snapshot := by
  have hok : (secondVisit.outcome Depot.host samplePath).1.isOk = true := by
    decide +kernel
  cases houtcome : (secondVisit.outcome Depot.host samplePath).1 with
  | error e =>
      rw [houtcome] at hok
      cases hok
  | ok snapshot =>
      obtain ⟨cloner, hcloner, -, source, hsource, ⟨commit, hcommit, hhead⟩,
        hexact, -⟩ :=
        exact_iff_of_isOk (Depot.tracks samplePath) sampleTurns_grow rfl
          visits_sampleTurns houtcome
      have huri : cloner.uri = sampleUri := by
        rcases List.mem_append.mp hcloner with hearlier | hlast
        · rw [List.mem_singleton.mp hearlier]
          rfl
        · rw [List.mem_singleton.mp hlast]
          rfl
      obtain rfl : source = firstVisit := by
        rcases hsource with ⟨hearlier, -⟩ | ⟨-, hnone⟩
        · exact List.mem_singleton.mp hearlier
        · exact absurd firstVisit_brings
            (hnone firstVisit (List.mem_singleton_self _))
      rw [huri] at hcommit hexact
      obtain rfl : firstCommit = commit :=
        Option.some.inj (commitIn_firstVisit.symm.trans hcommit)
      refine ⟨visits_sampleTurns, commitIn_secondVisit, snapshot, rfl,
        hhead, ?_⟩
      intro hright
      have hsame : some secondCommit = some firstCommit :=
        (commitIn_secondVisit.symm.trans (hexact.mp hright)).trans
          commitIn_firstVisit
      exact absurd (congrArg CommitId.text (Option.some.inj hsame)) (by decide)

end Reparse.Git
