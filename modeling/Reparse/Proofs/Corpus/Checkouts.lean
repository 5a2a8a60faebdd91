import Reparse.Corpus.Document
import Reparse.Corpus.Verify
import Reparse.Proofs.Files.Resolving
import Mathlib.Tactic

/-!
# Checkouts side by side

A checkout is cleaned and reset where it lies, so the folders of two projects
must not meet, and none may reach out of the working folder.  A registry looks
at names as texts only: it refuses a name that was there before, letter by
letter.  The folder, though, is where the name leads as a path.  So the
checkouts lie side by side exactly when every name descends, and no name
descends into what another one reaches.
-/

namespace Reparse.Corpus

open Files

namespace Registry

/-! ## The names of a registry -/

theorem names_of_addRow {registry next : Registry} {row : ProjectRow}
    (hadd : registry.addRow row = .ok next) :
    row.name ∉ registry.names ∧ next.names = registry.names ++ [row.name] := by
  unfold addRow at hadd
  split_ifs at hadd with hold
  cases hglobs : compileGlobs registry.origin row with
  | error e => simp [hglobs, bind, Except.bind] at hadd
  | ok exclude =>
      simp only [hglobs, bind, Except.bind, pure, Except.pure,
        Except.ok.injEq] at hadd
      subst hadd
      refine ⟨?_, by simp [names]⟩
      simpa [names] using hold

theorem nodup_names_of_foldlM_addRow {rows : List ProjectRow}
    {registry result : Registry} (hnames : registry.names.Nodup)
    (hadd : rows.foldlM addRow registry = .ok result) :
    result.names.Nodup := by
  induction rows generalizing registry with
  | nil => exact Except.ok.inj hadd ▸ hnames
  | cons row rows ih =>
      rw [List.foldlM_cons] at hadd
      cases hrow : registry.addRow row with
      | error e => simp [hrow, bind, Except.bind] at hadd
      | ok next =>
          obtain ⟨hnew, hnext⟩ := names_of_addRow hrow
          refine ih ?_ (by simpa [hrow, bind, Except.bind] using hadd)
          rw [hnext]
          exact (List.perm_append_singleton _ _).nodup_iff.mpr
            (List.nodup_cons.mpr ⟨hnew, hnames⟩)

/-- The names of a registry that was read are different texts. -/
theorem nodup_names_of_read {origin text : String} {registry : Registry}
    (hread : read origin text = .ok registry) : registry.names.Nodup := by
  unfold read at hread
  cases hmembers : Toml.read? text.toList with
  | none => simp [hmembers] at hread
  | some members =>
      simp only [hmembers] at hread
      cases hrows : rowsOfMembers members with
      | error e => simp [hrows, Except.mapError, bind, Except.bind] at hread
      | ok rows =>
          refine @nodup_names_of_foldlM_addRow rows ⟨origin, []⟩ registry
            List.nodup_nil ?_
          simpa [hrows, Except.mapError, bind, Except.bind, ofRows] using hread

end Registry

/-! ## The folders of a registry -/

/-- The names below the working folder to which the name of a project leads. -/
def Project.below? (project : Project) : Option Place :=
  Path.descent? ⟨project.name⟩

namespace Registry

/-- Wherever the program runs and whatever the working folder, every checkout
lies below the working folder, and no two checkouts meet. -/
def Separates (registry : Registry) : Prop :=
  ∀ (here : Place) (workdir : Path),
    (∀ project ∈ registry.projects,
      Place.Inside (workdir.resolve here)
        ((project.checkoutDir workdir).resolve here)) ∧
    registry.projects.Pairwise fun project other =>
      Place.Apart ((project.checkoutDir workdir).resolve here)
        ((other.checkoutDir workdir).resolve here)

/-- Every name leads below the working folder, and no two names into each
other. -/
def Descends (registry : Registry) : Prop :=
  (∀ project ∈ registry.projects, ∃ below ∈ project.below?, below ≠ []) ∧
    registry.projects.Pairwise fun project other =>
      ∀ below ∈ project.below?, ∀ below' ∈ other.below?,
        Place.Apart below below'

end Registry

theorem Project.resolve_checkoutDir {project : Project} {below : Place}
    (hbelow : project.below? = some below) (here : Place) (workdir : Path) :
    (project.checkoutDir workdir).resolve here =
      workdir.resolve here ++ below := by
  unfold checkoutDir
  rw [Path.resolve_join, Path.resolve_of_descent? hbelow]

/-- A folder name that is longer than every name of a path. -/
def freshName (path : Path) : String :=
  String.ofList (List.replicate (path.text.length + 1) 'w')

theorem freshName_notMem_names (path : Path) :
    freshName path ∉ path.names := by
  intro hmem
  have hle := Path.length_le_of_mem_names hmem
  simp [freshName] at hle

namespace Registry

theorem separates_of_descends {registry : Registry}
    (hdescends : registry.Descends) :
    registry.Separates := by
  obtain ⟨hinside, hapart⟩ := hdescends
  intro here workdir
  constructor
  · intro project hproject
    obtain ⟨below, hbelow, hne⟩ := hinside project hproject
    rw [Project.resolve_checkoutDir hbelow]
    exact Place.inside_append_iff.mpr hne
  · refine hapart.imp_of_mem ?_
    intro project other hproject hother hpair
    obtain ⟨below, hbelow, -⟩ := hinside project hproject
    obtain ⟨below', hbelow', -⟩ := hinside other hother
    rw [Project.resolve_checkoutDir hbelow,
      Project.resolve_checkoutDir hbelow',
      Place.apart_append_iff]
    exact hpair below hbelow below' hbelow'

theorem descends_of_separates {registry : Registry}
    (hseparates : registry.Separates) :
    registry.Descends := by
  constructor
  · intro project hproject
    -- The program runs in a folder whose name occurs nowhere in the name of
    -- the project.
    let root := freshName ⟨project.name⟩
    have hinside := (hseparates [root] ⟨"."⟩).1 project hproject
    have hworkdir : Path.resolve [root] ⟨"."⟩ = [root] := rfl
    cases hbelow : project.below? with
    | none =>
        refine absurd ?_ (Path.not_prefix_resolve_of_descent? hbelow
          (freshName_notMem_names ⟨project.name⟩))
        rw [Project.checkoutDir, Path.resolve_join, hworkdir] at hinside
        exact hinside.1
    | some below =>
        rw [Project.resolve_checkoutDir hbelow,
          Place.inside_append_iff] at hinside
        exact ⟨below, rfl, hinside⟩
  · refine (hseparates [] ⟨"."⟩).2.imp ?_
    intro project other hapart below hbelow below' hbelow'
    rwa [Project.resolve_checkoutDir hbelow,
      Project.resolve_checkoutDir hbelow',
      Place.apart_append_iff] at hapart

theorem descends_of_isPlainName {registry : Registry}
    (hnames : registry.names.Nodup)
    (hplain : ∀ project ∈ registry.projects, Path.IsPlainName project.name) :
    registry.Descends := by
  have hbelow :
      ∀ project ∈ registry.projects, project.below? = some [project.name] :=
    fun project hproject =>
      Path.descent?_of_isPlainName (hplain project hproject)
  constructor
  · intro project hproject
    exact ⟨[project.name], hbelow project hproject, List.cons_ne_nil _ _⟩
  · refine (List.pairwise_map.mp hnames).imp_of_mem ?_
    intro project other hproject hother hne
    rw [hbelow project hproject, hbelow other hother]
    simpa [Place.Apart] using And.intro hne (Ne.symm hne)

/-- What a registry that was read says about its checkouts.  Its names are
different as texts, which is enough when each is a plain name of a folder.  In
general the checkouts lie side by side exactly when every name leads below the
working folder and no two names lead into each other. -/
theorem separates_iff_of_read {origin text : String} {registry : Registry}
    (hread : read origin text = .ok registry) :
    (registry.Separates ↔ registry.Descends) ∧
      ((∀ project ∈ registry.projects, Path.IsPlainName project.name) →
        registry.Separates) :=
  ⟨⟨descends_of_separates, separates_of_descends⟩,
    fun hplain =>
      separates_of_descends
        (descends_of_isPlainName (nodup_names_of_read hread) hplain)⟩

/-- Two names for one folder. -/
def dottedDocument : String :=
  "[[project]]\nname = \"a\"\nrepo_uri = \"u\"\nrepo_ref = \"r\"\nexclude = []\n" ++
    "[[project]]\nname = \"./a\"\nrepo_uri = \"u\"\nrepo_ref = \"r\"\nexclude = []\n"

def dottedRegistry : Registry :=
  ⟨"test", [⟨"a", "u", "r", []⟩, ⟨"./a", "u", "r", []⟩]⟩

theorem read_dottedDocument :
    read "test" dottedDocument = .ok dottedRegistry := by
  decide +kernel

theorem not_separates_dottedRegistry :
    read "test" dottedDocument = .ok dottedRegistry ∧
      ¬ dottedRegistry.Separates := by
  refine ⟨read_dottedDocument, fun hseparates => ?_⟩
  have hdescends := (separates_iff_of_read read_dottedDocument).1.mp hseparates
  have hapart : Place.Apart ["a"] ["a"] :=
    (List.pairwise_pair.mp hdescends.2) ["a"] rfl ["a"] rfl
  exact hapart.1 (List.prefix_refl _)

end Registry
end Reparse.Corpus
