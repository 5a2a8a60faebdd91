import Reparse.Proofs.Git.Checkout
import Reparse.Replay.Load

/-!
# Fetching again

A suite is fetched when its folder is not there, and taken as it is when the
folder is there.  So what a fetch returns depends on the fetch that made the
folder, maybe long before.  When that fetch came to its end, the suite is at
its tag.  When it was stopped after the clone, the folder stays behind with
whatever the clone checked out, and every later fetch takes it for the suite.
-/

namespace Reparse.Replay

open Files Git

/-! ## Runs of fetches -/

/-- What is asked for: the suite of a version, from a repository. -/
structure Request where
  uri : String
  version : String

/-- A request and the state in which it finds the host. -/
structure Fetch (σ : Type) extends Request where
  found : σ

variable {σ : Type} (host : Host σ) (workdir : Path)

namespace Fetch

variable (fetch : Fetch σ)

def path : Path :=
  suiteFolder workdir fetch.version

/-- What a fetch returns, and the state in which it leaves the host. -/
def outcome : Except GitError Path × σ :=
  (fetchSuite host fetch.uri workdir fetch.version).runFrom fetch.found

/-- The checkout of the tag of its version, which a fetch runs when it finds no
folder. -/
def checkout : Except GitError Snapshot × σ :=
  (host.checkout fetch.uri (suiteTag fetch.version)
    (fetch.path workdir)).runFrom fetch.found

/-- The fetch found no folder and ran the checkout of its tag to the end. -/
def Completes : Prop :=
  host.isFolder fetch.found (fetch.path workdir) = false ∧
    (fetch.checkout host workdir).1.isOk = true

/-- The fetch makes the folder of a version. -/
def Makes (version : String) : Prop :=
  host.isFolder fetch.found (suiteFolder workdir version) = false ∧
    host.isFolder (fetch.outcome host workdir).2
      (suiteFolder workdir version) = true

/-- The fetch makes the folder of a version without a checkout of the tag of
that version. -/
def LeavesBehind (version : String) : Prop :=
  fetch.Makes host workdir version ∧
    ¬ (fetch.version = version ∧ fetch.Completes host workdir)

/-- The fetch failed after its clone went through. -/
def StopsAfterClone : Prop :=
  (fetch.outcome host workdir).1.isOk = false ∧
    ∃ cloned, (host.clone fetch.uri (fetch.path workdir)).runFrom fetch.found =
      (.ok (), cloned)

end Fetch

def fetches : List Request → σ → List (Fetch σ)
  | [], _ => []
  | request :: requests, state =>
    let fetch : Fetch σ := ⟨request, state⟩
    fetch :: fetches requests (fetch.outcome host workdir).2

variable {host workdir}

/-! ## One fetch -/

namespace Fetch

variable {fetch : Fetch σ}

theorem path_eq {other : Fetch σ} (hversion : other.version = fetch.version) :
    fetch.path workdir = other.path workdir := by
  rw [path, path, hversion]

theorem outcome_of_isFolder
    (hfolder : host.isFolder fetch.found (fetch.path workdir) = true) :
    fetch.outcome host workdir = (.ok (fetch.path workdir), fetch.found) := by
  unfold outcome fetchSuite
  rw [Action.runFrom_bind_of_ok (Action.runFrom_get fetch.found)]
  unfold path at hfolder ⊢
  rw [if_pos hfolder]
  rfl

theorem outcome_of_absent
    (habsent : host.isFolder fetch.found (fetch.path workdir) = false) :
    fetch.outcome host workdir =
      match fetch.checkout host workdir with
      | (.ok _, final) => (.ok (fetch.path workdir), final)
      | (.error e, final) => (.error e, final) := by
  unfold outcome fetchSuite checkout
  rw [Action.runFrom_bind_of_ok (Action.runFrom_get fetch.found)]
  unfold path at habsent ⊢
  rw [if_neg (by simp [habsent])]
  rcases hcheckout : (host.checkout fetch.uri (suiteTag fetch.version)
    (suiteFolder workdir fetch.version)).runFrom
      fetch.found with ⟨e | snapshot, final⟩
  · rw [Action.runFrom_bind_of_error hcheckout]
  · rw [Action.runFrom_bind_of_ok hcheckout]
    rfl

/-- A fetch that returns found its folder or ran the checkout to the end. -/
theorem of_isOk (hok : (fetch.outcome host workdir).1.isOk = true) :
    (fetch.outcome host workdir).1 = .ok (fetch.path workdir) ∧
      (host.isFolder fetch.found (fetch.path workdir) = true ∨
        fetch.Completes host workdir) := by
  cases hfolder : host.isFolder fetch.found (fetch.path workdir) with
  | true =>
      rw [outcome_of_isFolder hfolder]
      exact ⟨rfl, .inl rfl⟩
  | false =>
      rw [outcome_of_absent hfolder] at hok ⊢
      rcases hcheckout : fetch.checkout host workdir with ⟨e | snapshot, final⟩
      · rw [hcheckout] at hok
        cases hok
      · exact ⟨rfl, .inr ⟨hfolder, by rw [hcheckout]; rfl⟩⟩

section Folder

variable {version : String}

/-- A folder stays through a fetch for any version. -/
theorem isFolder_outcome
    (hrespects : host.Respects (suiteFolder workdir version))
    (hfolder :
      host.isFolder fetch.found (suiteFolder workdir version) = true) :
    host.isFolder (fetch.outcome host workdir).2
      (suiteFolder workdir version) = true := by
  cases hpath : host.isFolder fetch.found (fetch.path workdir) with
  | true =>
      rw [outcome_of_isFolder hpath]
      exact hfolder
  | false =>
      have hkeeps :
          host.isFolder (fetch.checkout host workdir).2
            (suiteFolder workdir version) = true :=
        hrespects.keeps_checkout _ _ _ fetch.found hfolder
      rw [outcome_of_absent hpath]
      rcases hcheckout : fetch.checkout host workdir with
        ⟨e | snapshot, final⟩ <;>
        rwa [hcheckout] at hkeeps

/-- A fetch that completes makes its folder. -/
theorem makes_of_completes (hrespects : host.Respects (fetch.path workdir))
    (hcompletes : fetch.Completes host workdir) :
    fetch.Makes host workdir fetch.version := by
  obtain ⟨habsent, hok⟩ := hcompletes
  refine ⟨habsent, ?_⟩
  rw [outcome_of_absent habsent]
  rcases hcheckout : fetch.checkout host workdir with ⟨e | snapshot, final⟩
  · rw [hcheckout] at hok
    cases hok
  · exact hrespects.isFolder_of_checkout hcheckout

/-- A fetch that leaves the folder of its own version behind has failed after
its clone. -/
theorem stopsAfterClone_of_leavesBehind
    (hrespects : host.Respects (fetch.path workdir)) {name : String}
    (hname : (fetch.path workdir).fileName? = some name)
    (hleaves : fetch.LeavesBehind host workdir fetch.version) :
    fetch.StopsAfterClone host workdir := by
  obtain ⟨⟨habsent, hmade⟩, hincomplete⟩ := hleaves
  have hfailed : (fetch.outcome host workdir).1.isOk = false := by
    rw [← Bool.not_eq_true]
    intro hok
    rcases (of_isOk hok).2 with hfolder | hcompletes
    · exact absurd (habsent.symm.trans hfolder) Bool.false_ne_true
    · exact hincomplete ⟨rfl, hcompletes⟩
  have hcheckout :
      (fetch.outcome host workdir).2 = (fetch.checkout host workdir).2 := by
    rw [outcome_of_absent habsent]
    split <;> simp_all
  rw [hcheckout] at hmade
  exact ⟨hfailed, hrespects.cloned_of_checkout hname habsent hmade⟩

end Folder
end Fetch

/-! ## Many fetches -/

section Fetches

variable {version : String} {requests : List Request} {state : σ}

/-- Every later fetch finds a folder that is there. -/
theorem isFolder_found
    (hrespects : host.Respects (suiteFolder workdir version))
    (hfolder : host.isFolder state (suiteFolder workdir version) = true)
    {fetch : Fetch σ} (hfetch : fetch ∈ fetches host workdir requests state) :
    host.isFolder fetch.found (suiteFolder workdir version) = true := by
  induction requests generalizing state with
  | nil => cases hfetch
  | cons request requests ih =>
      rcases List.mem_cons.mp hfetch with rfl | hfetch
      · exact hfolder
      · exact ih (Fetch.isFolder_outcome hrespects hfolder) hfetch

/-- No fetch has made a folder that a later fetch does not find. -/
theorem not_makes_of_absent
    (hrespects : host.Respects (suiteFolder workdir version))
    {earlier later : List (Fetch σ)} {fetch : Fetch σ}
    (hfetches : fetches host workdir requests state =
      earlier ++ fetch :: later)
    (hfound :
      host.isFolder fetch.found (suiteFolder workdir version) = false) :
    ∀ other ∈ earlier, ¬ other.Makes host workdir version := by
  induction requests generalizing state earlier with
  | nil => simp [fetches] at hfetches
  | cons request requests ih =>
      cases earlier with
      | nil => simp
      | cons first earlier =>
          obtain ⟨rfl, hrest⟩ := List.cons.inj hfetches
          intro other hother hmakes
          rcases List.mem_cons.mp hother with rfl | hother
          · have hfetch : fetch ∈ fetches host workdir requests
                (Fetch.outcome host workdir ⟨request, state⟩).2 := by
                  simp [hrest]
            have hpresent := isFolder_found hrespects hmakes.2 hfetch
            exact absurd (hfound.symm.trans hpresent) Bool.false_ne_true
          · exact ih hrest other hother hmakes

/-- The folder that a fetch finds was made by exactly one of the fetches
before. -/
theorem exists_maker (hrespects : host.Respects (suiteFolder workdir version))
    (habsent : host.isFolder state (suiteFolder workdir version) = false)
    {earlier later : List (Fetch σ)} {fetch : Fetch σ}
    (hfetches : fetches host workdir requests state =
      earlier ++ fetch :: later)
    (hfound : host.isFolder fetch.found (suiteFolder workdir version) = true) :
    ∃ maker ∈ earlier, maker.Makes host workdir version ∧
      ∀ other ∈ earlier, other.Makes host workdir version → other = maker := by
  induction requests generalizing state earlier with
  | nil => simp [fetches] at hfetches
  | cons request requests ih =>
      cases earlier with
      | nil =>
          obtain ⟨rfl, -⟩ := List.cons.inj hfetches
          exact absurd (habsent.symm.trans hfound) Bool.false_ne_true
      | cons first earlier =>
          obtain ⟨rfl, hrest⟩ := List.cons.inj hfetches
          cases hnext : host.isFolder
            (Fetch.outcome host workdir ⟨request, state⟩).2
              (suiteFolder workdir version) with
          | true =>
              refine ⟨⟨request, state⟩, List.mem_cons_self ..,
                ⟨habsent, hnext⟩, ?_⟩
              intro other hother hmakes
              rcases List.mem_cons.mp hother with rfl | hother
              · rfl
              · have hlater : other ∈ fetches host workdir requests
                    (Fetch.outcome host workdir ⟨request, state⟩).2 := by
                      simp [hrest, hother]
                have hpresent := isFolder_found hrespects hnext hlater
                exact absurd (hmakes.1.symm.trans hpresent) Bool.false_ne_true
          | false =>
              obtain ⟨maker, hmaker, hmakes, hunique⟩ := ih hnext hrest
              refine ⟨maker, List.mem_cons_of_mem _ hmaker, hmakes, ?_⟩
              intro other hother hother'
              rcases List.mem_cons.mp hother with rfl | hother
              · exact absurd (hnext.symm.trans hother'.2) Bool.false_ne_true
              · exact hunique other hother hother'

end Fetches

/-- What a fetch returns in a run of fetches, when its folder was not there at
the start.  It returns the folder of its version.  A fetch for the version,
this one or one before, has run the checkout of the tag to the end unless a
fetch before left the folder behind without it; where that was a fetch for the
version itself, it was stopped after its clone. -/
theorem exists_completes_iff_of_isOk {requests : List Request} {state : σ}
    {earlier later : List (Fetch σ)} {fetch : Fetch σ}
    (hrespects : host.Respects (fetch.path workdir))
    (habsent : host.isFolder state (fetch.path workdir) = false)
    (hfetches : fetches host workdir requests state =
      earlier ++ fetch :: later)
    (hok : (fetch.outcome host workdir).1.isOk = true) :
    (fetch.outcome host workdir).1 = .ok (fetch.path workdir) ∧
      ((∃ other ∈ earlier ++ [fetch],
          other.version = fetch.version ∧ other.Completes host workdir) ↔
        ∀ other ∈ earlier, ¬ other.LeavesBehind host workdir fetch.version) ∧
      ∀ name, (fetch.path workdir).fileName? = some name →
        ∀ other ∈ earlier, other.version = fetch.version →
          other.LeavesBehind host workdir fetch.version →
            other.StopsAfterClone host workdir := by
  obtain ⟨hpath, hreturns⟩ := Fetch.of_isOk hok
  refine ⟨hpath, ?_, ?_⟩
  · cases hfound : host.isFolder fetch.found (fetch.path workdir) with
    | false =>
        have hcompletes : fetch.Completes host workdir := by
          rcases hreturns with hfolder | hcompletes
          · exact absurd (hfound.symm.trans hfolder) Bool.false_ne_true
          · exact hcompletes
        have hnone := not_makes_of_absent hrespects hfetches hfound
        constructor
        · intro _ other hother hleaves
          exact hnone other hother hleaves.1
        · intro _
          exact ⟨fetch, by simp, rfl, hcompletes⟩
    | true =>
        obtain ⟨maker, hmaker, hmakes, hunique⟩ :=
          exists_maker hrespects habsent hfetches hfound
        constructor
        · rintro ⟨other, hother, hversion, hcompletes⟩ last hlast hleaves
          have hmade : other.Makes host workdir fetch.version :=
            hversion ▸ Fetch.makes_of_completes
              (Fetch.path_eq hversion ▸ hrespects) hcompletes
          have hearlier : other ∈ earlier := by
            rcases List.mem_append.mp hother with hearlier | hfetch
            · exact hearlier
            · obtain rfl := List.mem_singleton.mp hfetch
              exact absurd (hmade.1.symm.trans hfound) Bool.false_ne_true
          obtain rfl :=
            (hunique last hlast hleaves.1).trans
              (hunique other hearlier hmade).symm
          exact hleaves.2 ⟨hversion, hcompletes⟩
        · intro hnone
          have hmade := not_and_not_right.mp (hnone maker hmaker) hmakes
          exact ⟨maker, List.mem_append_left _ hmaker, hmade⟩
  · intro name hname other hother hversion hleaves
    have hsame : fetch.path workdir = other.path workdir :=
      Fetch.path_eq hversion
    rw [hsame] at hrespects hname
    rw [← hversion] at hleaves
    exact Fetch.stopsAfterClone_of_leavesBehind hrespects hname hleaves

/-! ## A fetch after an interrupted one -/

def sampleRequest : Request := ⟨suiteUri, "1.0"⟩

/-- A disk on which the clone succeeds and the checkout after it fails. -/
def sampleDisk : Disk :=
  ⟨[[]], [⟨true, [], []⟩, ⟨false, [], []⟩]⟩

def interruptedFetch : Fetch Disk := ⟨sampleRequest, sampleDisk⟩

def secondFetch : Fetch Disk :=
  ⟨sampleRequest, (interruptedFetch.outcome Disk.host ⟨"work"⟩).2⟩

theorem not_completes_secondFetch :
    fetches Disk.host ⟨"work"⟩ [sampleRequest, sampleRequest] sampleDisk =
        [interruptedFetch] ++ secondFetch :: [] ∧
      (secondFetch.outcome Disk.host ⟨"work"⟩).1 =
        .ok ⟨"work/toy-grammar-suite-1.0"⟩ ∧
      ¬ ∃ other ∈ [interruptedFetch] ++ [secondFetch],
        other.version = secondFetch.version ∧
          other.Completes Disk.host ⟨"work"⟩ := by
  have hok : (secondFetch.outcome Disk.host ⟨"work"⟩).1.isOk = true := by
    decide +kernel
  obtain ⟨hpath, hiff, -⟩ := exists_completes_iff_of_isOk (Disk.respects _)
    (by decide +kernel)
      (show fetches Disk.host ⟨"work"⟩ [sampleRequest, sampleRequest]
        sampleDisk =
      [interruptedFetch] ++ secondFetch :: [] from rfl) hok
  refine ⟨rfl, hpath.trans (by decide +kernel), fun hcompletes => ?_⟩
  refine hiff.mp hcompletes interruptedFetch (List.mem_singleton_self _)
    ⟨⟨?_, ?_⟩, ?_⟩
  · decide +kernel
  · decide +kernel
  · rintro ⟨-, -, hcheckout⟩
    exact absurd hcheckout (by decide +kernel)

end Reparse.Replay
