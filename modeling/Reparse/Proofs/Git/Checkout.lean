import Reparse.Git.Client
import Reparse.Proofs.Files.Resolving
import Mathlib.Tactic

/-!
# A folder under a checkout

A client changes the folders of its host only through the commands that it runs
and the folders that it makes for a clone.  This file follows one folder
through a checkout: it stays once it is there, a checkout that succeeds leaves
it there, and a checkout that finds nothing and leaves it there has cloned it,
even when it fails afterwards.
-/

namespace Reparse.Git

open Files

/-! ## Running actions -/

namespace Action

variable {σ α β : Type}

/-- The result of an action and the state that it leaves. -/
def runFrom (action : Action σ α) (state : σ) : Except GitError α × σ :=
  action state

/-- A condition that holds after an action when it held before. -/
def Keeps (condition : σ → Prop) (action : Action σ α) : Prop :=
  ∀ state, condition state → condition (action.runFrom state).2

theorem runFrom_get (state : σ) :
    runFrom (get : Action σ σ) state = (.ok state, state) := rfl

theorem runFrom_bind (action : Action σ α) (next : α → Action σ β)
    (state : σ) :
    runFrom (action >>= next) state =
      match action.runFrom state with
      | (.ok a, middle) => (next a).runFrom middle
      | (.error e, middle) => (.error e, middle) := by
  unfold runFrom
  simp only [bind, ExceptT.bind, ExceptT.mk, StateT.bind, ExceptT.bindCont]
  rcases action state with ⟨e | a, middle⟩ <;> rfl

theorem runFrom_bind_of_ok {action : Action σ α} {next : α → Action σ β}
    {state middle : σ} {a : α}
    (haction : action.runFrom state = (.ok a, middle)) :
    runFrom (action >>= next) state = (next a).runFrom middle := by
  rw [runFrom_bind, haction]

theorem runFrom_bind_of_error {action : Action σ α} {next : α → Action σ β}
    {state middle : σ} {e : GitError}
    (haction : action.runFrom state = (.error e, middle)) :
    runFrom (action >>= next) state = (.error e, middle) := by
  rw [runFrom_bind, haction]

theorem runFrom_bind_eq_ok {action : Action σ α} {next : α → Action σ β}
    {state final : σ} {b : β}
    (hbind : runFrom (action >>= next) state = (.ok b, final)) :
    ∃ a middle, action.runFrom state = (.ok a, middle) ∧
      (next a).runFrom middle = (.ok b, final) := by
  rcases haction : action.runFrom state with ⟨e | a, middle⟩
  · simp [runFrom_bind_of_error haction] at hbind
  · exact ⟨a, middle, rfl, by rwa [runFrom_bind_of_ok haction] at hbind⟩

theorem runFrom_bind_eq_error {action : Action σ α} {next : α → Action σ β}
    {state final : σ} {e : GitError}
    (hbind : runFrom (action >>= next) state = (.error e, final)) :
    action.runFrom state = (.error e, final) ∨ ∃ a middle,
      action.runFrom state = (.ok a, middle) ∧
        (next a).runFrom middle = (.error e, final) := by
  rcases haction : action.runFrom state with ⟨e' | a, middle⟩
  · left
    rw [runFrom_bind_of_error haction] at hbind
    cases hbind
    rfl
  · right
    exact ⟨a, middle, rfl, by rwa [runFrom_bind_of_ok haction] at hbind⟩

namespace Keeps

variable {condition : σ → Prop}

theorem pure (a : α) : Keeps condition (pure a : Action σ α) :=
  fun _ hstate => hstate

theorem throw (e : GitError) : Keeps condition (throw e : Action σ α) :=
  fun _ hstate => hstate

theorem get : Keeps condition (get : Action σ σ) :=
  fun _ hstate => hstate

theorem bind {action : Action σ α} {next : α → Action σ β}
    (haction : Keeps condition action)
    (hnext : ∀ a, Keeps condition (next a)) :
    Keeps condition (action >>= next) := by
  intro state hstate
  have hmiddle := haction state hstate
  rcases hrun : action.runFrom state with ⟨e | a, middle⟩ <;>
    rw [hrun] at hmiddle
  · rw [runFrom_bind_of_error hrun]
    exact hmiddle
  · rw [runFrom_bind_of_ok hrun]
    exact hnext a middle hmiddle

end Keeps
end Action

/-! ## Hosts that respect a folder -/

def succeeded : Except SystemError Output → Bool
  | .ok output => output.success
  | .error _ => false

theorem interpret_eq_ok {args : List String}
    {result : Except SystemError Output} {text : List Char}
    (hinterpret : interpret args result = .ok text) :
    succeeded result = true := by
  unfold interpret at hinterpret
  unfold succeeded
  grind

theorem interpret_eq_error {args : List String}
    {result : Except SystemError Output} {e : GitError}
    (hinterpret : interpret args result = .error e) :
    succeeded result = false := by
  unfold interpret at hinterpret
  unfold succeeded
  grind

inductive IsCommand : List String → Prop
  | clone (uri name : String) : IsCommand ["clone", uri, name]
  | fetch : IsCommand ["fetch", "--tags", "origin"]
  | clean : IsCommand Host.cleanArgs
  | checkout (ref : String) : IsCommand ["checkout", "--force", ref]
  | reset : IsCommand ["reset", "--hard"]
  | head : IsCommand ["rev-parse", "HEAD"]

namespace Host

variable {σ : Type} {host : Host σ} {path : Path}

/-! ## The two parts of a checkout -/

/-- Brings the repository into a folder. -/
def bring (host : Host σ) (uri : String) (path : Path) : Action σ Unit := do
  if host.isThere (← get) path then host.update path else host.clone uri path

/-- Brings a repository that is there to a reference. -/
def settle (host : Host σ) (ref : String) (path : Path) :
    Action σ Snapshot := do
  host.gitAll path [["checkout", "--force", ref], ["reset", "--hard"],
    cleanArgs]
  return ⟨path, ref, ← host.head path⟩

theorem checkout_eq (host : Host σ) (uri ref : String) (path : Path) :
    host.checkout uri ref path = host.bring uri path >>= fun _ =>
      host.settle ref path := by
  unfold checkout bring settle
  rw [bind_assoc]
  congr 1
  funext state
  split <;> rfl

/-- What the surroundings of a client may do to the folder at a path. -/
structure Respects (host : Host σ) (path : Path) : Prop where
  /-- No command takes the folder away. -/
  run_keeps :
    ∀ {state dir args}, IsCommand args → host.isFolder state path = true →
    host.isFolder (host.run state dir args).2 path = true
  makeFolders_keeps : ∀ {state parent}, host.isFolder state path = true →
    host.isFolder (host.makeFolders state parent).2 path = true
  /-- A command that runs in the folder needs it. -/
  run_inside : ∀ {state args}, succeeded (host.run state path args).1 = true →
    host.isFolder state path = true
  /-- A command that fails makes nothing. -/
  failure_makes_nothing :
    ∀ {state dir args}, succeeded (host.run state dir args).1 = false →
    host.isFolder state path = false →
      host.isFolder (host.run state dir args).2 path = false
  /-- The folder is not made with the folders above it, when its path ends with
  its name. -/
  makeFolders_above : ∀ {state name}, path.fileName? = some name →
    host.isFolder state path = false →
    host.isFolder (host.makeFolders state (cloneParent path)).2 path = false

namespace Respects

/-! ## The folder stays -/

theorem keeps_git (hrespects : host.Respects path) (dir : Path)
    {args : List String} (hargs : IsCommand args) :
    (host.git dir args).Keeps fun state => host.isFolder state path = true :=
  fun _ hfolder => hrespects.run_keeps hargs hfolder

theorem keeps_gitAll (hrespects : host.Respects path) (dir : Path)
    {commands : List (List String)}
    (hcommands : ∀ args ∈ commands, IsCommand args) :
    (host.gitAll dir commands).Keeps fun state =>
      host.isFolder state path = true := by
  induction commands with
  | nil => exact .pure ()
  | cons args commands ih =>
      have hrest := ih fun args hargs =>
        hcommands args (List.mem_cons_of_mem _ hargs)
      exact (hrespects.keeps_git dir
        (hcommands args (List.mem_cons_self ..))).bind fun _ => hrest

theorem keeps_head (hrespects : host.Respects path) (dir : Path) :
    (host.head dir).Keeps fun state => host.isFolder state path = true := by
  refine (hrespects.keeps_git dir .head).bind fun output => ?_
  cases firstLine? output with
  | none => exact .throw _
  | some commit => exact .pure _

theorem keeps_update (hrespects : host.Respects path) (dir : Path) :
    (host.update dir).Keeps fun state => host.isFolder state path = true :=
  hrespects.keeps_gitAll dir
    (List.forall_mem_cons.mpr ⟨.fetch, List.forall_mem_singleton.mpr .clean⟩)

theorem keeps_clone (hrespects : host.Respects path) (uri : String)
    (dir : Path) :
    (host.clone uri dir).Keeps fun state =>
      host.isFolder state path = true := by
  refine .bind (fun _ hfolder =>
    hrespects.makeFolders_keeps hfolder) fun made => ?_
  cases made with
  | error e => exact .throw _
  | ok _ =>
      cases dir.fileName? with
      | none => exact .throw _
      | some name =>
          exact hrespects.keeps_gitAll
            _ (List.forall_mem_singleton.mpr (.clone uri name))

theorem keeps_bring (hrespects : host.Respects path) (uri : String)
    (dir : Path) :
    (host.bring uri dir).Keeps fun state =>
      host.isFolder state path = true := by
  refine .bind .get fun state => ?_
  split
  · exact hrespects.keeps_update dir
  · exact hrespects.keeps_clone uri dir

theorem keeps_settle (hrespects : host.Respects path) (ref : String)
    (dir : Path) :
    (host.settle ref dir).Keeps fun state =>
      host.isFolder state path = true := by
  refine (hrespects.keeps_gitAll dir ?_).bind fun _ =>
    (hrespects.keeps_head dir).bind fun _ => .pure _
  intro args hargs
  simp only [List.mem_cons, List.not_mem_nil, or_false] at hargs
  obtain rfl | rfl | rfl := hargs
  · exact .checkout ref
  · exact .reset
  · exact .clean

theorem keeps_checkout (hrespects : host.Respects path) (uri ref : String)
    (dir : Path) :
    (host.checkout uri ref dir).Keeps fun state =>
      host.isFolder state path = true := by
  rw [checkout_eq]
  exact (hrespects.keeps_bring uri dir).bind fun _ =>
    hrespects.keeps_settle ref dir

/-! ## The folder comes -/

theorem isFolder_of_git (hrespects : host.Respects path) {state final : σ}
    {args : List String} {text : List Char}
    (hgit : (host.git path args).runFrom state = (.ok text, final)) :
    host.isFolder state path = true := by
  have hinterpret : interpret args (host.run state path args).1 = .ok text :=
    congrArg Prod.fst hgit
  exact hrespects.run_inside (interpret_eq_ok hinterpret)

theorem isFolder_of_gitAll (hrespects : host.Respects path) {state final : σ}
    {args : List String} {commands : List (List String)}
    (hall : (host.gitAll path (args :: commands)).runFrom state =
      (.ok (), final)) :
    host.isFolder state path = true := by
  obtain ⟨text, middle, hgit, -⟩ := Action.runFrom_bind_eq_ok hall
  exact hrespects.isFolder_of_git hgit

/-- A checkout that succeeds has run in the folder. -/
theorem isFolder_of_checkout (hrespects : host.Respects path)
    {uri ref : String} {state final : σ} {snapshot : Snapshot}
    (hcheckout : (host.checkout uri ref path).runFrom state =
      (.ok snapshot, final)) :
    host.isFolder final path = true := by
  rw [checkout_eq] at hcheckout
  obtain ⟨_, middle, -, hsettle⟩ := Action.runFrom_bind_eq_ok hcheckout
  obtain ⟨_, settled, hall, -⟩ := Action.runFrom_bind_eq_ok hsettle
  have hkeeps :=
    hrespects.keeps_settle ref path middle (hrespects.isFolder_of_gitAll hall)
  rwa [hsettle] at hkeeps

theorem absent_of_git (hrespects : host.Respects path) {state final : σ}
    {dir : Path} {args : List String} {e : GitError}
    (hgit : (host.git dir args).runFrom state = (.error e, final))
    (habsent : host.isFolder state path = false) :
    host.isFolder final path = false := by
  have hinterpret : interpret args (host.run state dir args).1 = .error e :=
    congrArg Prod.fst hgit
  have hfinal : (host.run state dir args).2 = final := congrArg Prod.snd hgit
  rw [← hfinal]
  exact hrespects.failure_makes_nothing (interpret_eq_error hinterpret) habsent

theorem absent_of_update (hrespects : host.Respects path) {state : σ}
    (habsent : host.isFolder state path = false) :
    ∃ e final, (host.update path).runFrom state = (.error e, final) ∧
      host.isFolder final path = false := by
  rcases hfetch : (host.git path ["fetch", "--tags", "origin"]).runFrom
    state with ⟨e | text, final⟩
  · exact ⟨e, final, Action.runFrom_bind_of_error hfetch,
      hrespects.absent_of_git hfetch habsent⟩
  · have hfolder := hrespects.isFolder_of_git hfetch
    rw [habsent] at hfolder
    cases hfolder

theorem absent_of_clone (hrespects : host.Respects path) {name uri : String}
    (hname : path.fileName? = some name) {state final : σ} {e : GitError}
    (habsent : host.isFolder state path = false)
    (hclone : (host.clone uri path).runFrom state = (.error e, final)) :
    host.isFolder final path = false := by
  unfold clone at hclone
  rcases Action.runFrom_bind_eq_error hclone with
    hfirst | ⟨made, middle, hmade, hrest⟩
  · cases hfirst
  · have hmiddle : host.isFolder middle path = false := by
      have hstate : (host.makeFolders state (cloneParent path)).2 = middle :=
        congrArg Prod.snd hmade
      rw [← hstate]
      exact hrespects.makeFolders_above hname habsent
    cases made with
    | error e' =>
        cases hrest
        exact hmiddle
    | ok _ =>
        simp only [hname] at hrest
        rcases Action.runFrom_bind_eq_error hrest with
          hgit | ⟨text, last, -, hdone⟩
        · exact hrespects.absent_of_git hgit hmiddle
        · cases hdone

/-- A checkout that found no folder and leaves one has cloned it, even when it
fails afterwards. -/
theorem cloned_of_checkout (hrespects : host.Respects path)
    {name uri ref : String} (hname : path.fileName? = some name) {state : σ}
    (habsent : host.isFolder state path = false)
    (hmade : host.isFolder ((host.checkout uri ref path).runFrom state).2
      path = true) :
    ∃ middle, (host.clone uri path).runFrom state = (.ok (), middle) := by
  rw [checkout_eq] at hmade
  have hbring : (host.bring uri path).runFrom state =
      if host.isThere state path then (host.update path).runFrom state
      else (host.clone uri path).runFrom state := by
    unfold bring
    rw [Action.runFrom_bind_of_ok (Action.runFrom_get state)]
    split <;> rfl
  split_ifs at hbring
  · -- Something else stands in the place of the folder, and nothing can be
    -- fetched into it.
    obtain ⟨e, final, hupdate, hfinal⟩ := hrespects.absent_of_update habsent
    rw [Action.runFrom_bind_of_error (hbring.trans hupdate), hfinal] at hmade
    cases hmade
  · rcases hclone : (host.clone uri path).runFrom state with ⟨e | _, middle⟩
    · rw [Action.runFrom_bind_of_error (hbring.trans hclone),
        hrespects.absent_of_clone hname habsent hclone] at hmade
      cases hmade
    · exact ⟨middle, rfl⟩

end Respects

/-! ## Disks with scripted answers -/

/-- A clone is made where the path of the checkout leads. -/
theorem resolve_cloneParent {name : String}
    (hname : path.fileName? = some name) (here : Place) :
    path.resolve here = (cloneParent path).resolve here ++ [name] := by
  obtain ⟨parent, hparent, habsolute, hnames⟩ :=
    Path.parent?_of_fileName? hname
  obtain ⟨hdot, hdots⟩ := Path.ne_of_fileName? hname
  have hplace : (cloneParent path).resolve here = parent.resolve here := by
    unfold cloneParent
    rw [hparent]
    obtain ⟨text⟩ := parent
    by_cases hempty : text = ""
    · subst hempty
      rfl
    · simp [hempty]
  rw [hplace, Path.resolve_eq_names, Path.resolve_eq_names, hnames, habsolute,
    List.foldl_append]
  simp [Place.step, hdot, hdots]

end Host

/-- Folders, and what git is going to answer. -/
structure Disk where
  folders : List Place
  outputs : List Output

namespace Disk

def hasFolder (disk : Disk) (path : Path) : Bool :=
  disk.folders.contains (path.resolve [])

/-- The disk with the folders of a path, from the outermost on. -/
def makeFolders (disk : Disk) (path : Path) : Except SystemError Unit × Disk :=
  (.ok (), { disk with folders := disk.folders ++ (path.resolve []).inits })

/-- The folder that a clone makes when it succeeds. -/
def cloned (dir : Path) (output : Output) : List String → List Place
  | ["clone", _, name] =>
      if output.success then [dir.resolve [] ++ [name]] else []
  | _ => []

/-- A run of git in a folder that is there takes the next answer. -/
def run (disk : Disk) (dir : Path) (args : List String) :
    Except SystemError Output × Disk :=
  if disk.hasFolder dir then
    let output := disk.outputs.head?.getD ⟨true, [], []⟩
    (.ok output, ⟨disk.folders ++ cloned dir output args, disk.outputs.tail⟩)
  else (.error .notFound, disk)

def host : Host Disk where
  isThere := hasFolder
  isFolder := hasFolder
  makeFolders := makeFolders
  run := run

/-- Whatever git answers, the folder at a path is treated with respect. -/
theorem respects (path : Path) : host.Respects path where
  run_keeps := by
    intro disk dir args _ hfolder
    simp only [host, hasFolder, run] at hfolder ⊢
    split_ifs <;> simp_all
  makeFolders_keeps := by
    intro disk parent hfolder
    simp_all [host, hasFolder, makeFolders]
  run_inside := by
    intro disk args hsucceeded
    simp only [host, run] at hsucceeded ⊢
    split_ifs at hsucceeded with hfolder
    · exact hfolder
    · cases hsucceeded
  failure_makes_nothing := by
    intro disk dir args hfailed habsent
    simp only [host, run] at hfailed habsent ⊢
    split_ifs at hfailed ⊢ with hfolder
    · have hnone :
          cloned dir (disk.outputs.head?.getD ⟨true, [], []⟩) args = [] := by
        unfold cloned
        split
        · rw [if_neg (by simpa [succeeded] using hfailed)]
        · rfl
      simpa [hnone, hasFolder] using habsent
    · exact habsent
  makeFolders_above := by
    intro disk name hname habsent
    have hparent := Host.resolve_cloneParent hname []
    have hnone :
        path.resolve [] ∉ ((Host.cloneParent path).resolve []).inits := by
      rw [hparent, List.mem_inits]
      exact fun hprefix => absurd hprefix.length_le (by simp)
    simp_all [host, hasFolder, makeFolders]

end Disk
end Reparse.Git
