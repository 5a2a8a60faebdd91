import Reparse.Corpus.Document
import Mathlib.Tactic

/-!
# Loading and asking a registry

A registry is built from its rows one by one.  What a row can do depends on the
names before it only: it is refused when its name was there before, whatever
its globs are, and otherwise at the first of its globs that does not compile.
So the whole list is accepted exactly when it is sound, and the error is that
of the first row that is at fault behind a sound beginning.

A sound list has different names, hence a name belongs to one project at most,
and looking up the first project of a name is looking up the project of that
name.
-/

namespace Reparse.Corpus

/-! ## Passes that stop at the first error -/

section Passes

variable {α β ε : Type} {f : α → Except ε β}

theorem mapM_eq_ok_iff {xs : List α} {ys : List β} :
    xs.mapM f = .ok ys ↔ List.Forall₂ (fun x y => f x = .ok y) xs ys := by
  induction xs generalizing ys with
  | nil =>
      rw [List.forall₂_nil_left_iff, List.mapM_nil]
      constructor
      · intro hnil
        exact (Except.ok.inj hnil).symm
      · rintro rfl
        rfl
  | cons x xs ih =>
      rw [List.mapM_cons, List.forall₂_cons_left_iff]
      cases hx : f x with
      | error e => simp [bind, Except.bind]
      | ok y =>
          cases hxs : xs.mapM f with
          | error e => simp [bind, Except.bind, ← ih, hxs]
          | ok rest =>
              simp [bind, Except.bind, pure, Except.pure, ← ih, hxs, eq_comm]

theorem mapM_eq_error_iff {xs : List α} {e : ε} :
    xs.mapM f = .error e ↔ ∃ before x after, xs = before ++ x :: after ∧
      (∀ y ∈ before, ∃ z, f y = .ok z) ∧ f x = .error e := by
  induction xs with
  | nil => simp [pure, Except.pure]
  | cons x xs ih =>
      rw [List.mapM_cons]
      constructor
      · intro hfail
        cases hx : f x with
        | error e' =>
            obtain rfl : e' = e := by simpa [hx, bind, Except.bind] using hfail
            exact ⟨[], x, xs, rfl, by simp, hx⟩
        | ok y =>
            have hrest : xs.mapM f = .error e := by
              cases hxs : xs.mapM f with
              | error e' => simpa [hx, hxs, bind, Except.bind] using hfail
              | ok rest =>
                  simp [hx, hxs, bind, Except.bind, pure, Except.pure] at hfail
            obtain ⟨before, bad, after, rfl, hbefore, hbad⟩ := ih.mp hrest
            exact ⟨x :: before, bad, after, rfl,
              by simpa [hx] using hbefore, hbad⟩
      · rintro ⟨before, bad, after, hsplit, hbefore, hbad⟩
        cases before with
        | nil =>
            obtain ⟨rfl, rfl⟩ := List.cons.inj hsplit
            simp [hbad, bind, Except.bind]
        | cons first before =>
            obtain ⟨rfl, rfl⟩ := List.cons.inj hsplit
            obtain ⟨⟨y, hy⟩, hbefore⟩ := List.forall_mem_cons.mp hbefore
            rw [hy, ih.mpr ⟨before, bad, after, rfl, hbefore, hbad⟩]
            rfl

end Passes

/-! ## Rows -/

/-- A project that is what its row says, with the globs in the order of the
row. -/
structure ProjectRow.Gives (row : ProjectRow) (project : Project) : Prop where
  name : project.name = row.name
  repoUri : project.repoUri = row.repoUri
  repoRef : project.repoRef = row.repoRef
  exclude :
    List.Forall₂ (fun text glob => Glob.compile text = .ok glob)
      row.exclude project.exclude

/-- Whether a text is a glob. -/
def Compiles (text : String) : Prop :=
  ∃ glob, Glob.compile text = .ok glob

/-- Rows of different names, every glob of which compiles. -/
structure Sound (rows : List ProjectRow) : Prop where
  names : (rows.map ProjectRow.name).Nodup
  globs : ∀ row ∈ rows, ∀ text ∈ row.exclude, Compiles text

/-- The fault of a row behind the rows `before`. -/
inductive Offends (origin : String) (before : List ProjectRow)
    (row : ProjectRow) : RegistryError → Prop where
  | repeated (hold : row.name ∈ before.map ProjectRow.name) :
      Offends origin before row (.duplicateProject origin row.name)
  | badGlob {good : List String} {text : String} {rest : List String}
      {e : GlobError} (hnew : row.name ∉ before.map ProjectRow.name)
      (hexclude : row.exclude = good ++ text :: rest)
      (hgood : ∀ earlier ∈ good, Compiles earlier)
      (hbad : Glob.compile text = .error e) :
      Offends origin before row (.invalidGlob origin row.name text e)

theorem compiles_of_forall₂ {texts : List String} {globs : List Glob}
    (hcompiled :
      List.Forall₂ (fun text glob => Glob.compile text = .ok glob)
        texts globs) :
    ∀ text ∈ texts, Compiles text := by
  induction hcompiled with
  | nil => simp
  | cons hglob _ ih => exact List.forall_mem_cons.mpr ⟨⟨_, hglob⟩, ih⟩

theorem exists_forall₂_of_compiles {texts : List String}
    (hcompiles : ∀ text ∈ texts, Compiles text) :
    ∃ globs,
      List.Forall₂ (fun text glob => Glob.compile text = .ok glob)
        texts globs := by
  induction texts with
  | nil => exact ⟨[], .nil⟩
  | cons text texts ih =>
      obtain ⟨⟨glob, hglob⟩, hrest⟩ := List.forall_mem_cons.mp hcompiles
      obtain ⟨globs, hglobs⟩ := ih hrest
      exact ⟨glob :: globs, .cons hglob hglobs⟩

theorem map_name_of_gives {rows : List ProjectRow} {projects : List Project}
    (hgives : List.Forall₂ ProjectRow.Gives rows projects) :
    projects.map Project.name = rows.map ProjectRow.name := by
  induction hgives with
  | nil => rfl
  | cons hrow _ ih => rw [List.map_cons, List.map_cons, hrow.name, ih]

theorem sound_concat_iff {rows : List ProjectRow} {row : ProjectRow} :
    Sound (rows ++ [row]) ↔ Sound rows ∧ row.name ∉ rows.map ProjectRow.name ∧
      ∀ text ∈ row.exclude, Compiles text := by
  have hnames : ((rows ++ [row]).map ProjectRow.name).Nodup ↔
      row.name ∉ rows.map ProjectRow.name ∧
        (rows.map ProjectRow.name).Nodup := by
    rw [List.map_append, List.map_singleton,
      (List.perm_append_singleton _ _).nodup_iff,
      List.nodup_cons]
  have hglobs : (∀ r ∈ rows ++ [row], ∀ text ∈ r.exclude, Compiles text) ↔
      (∀ r ∈ rows, ∀ text ∈ r.exclude, Compiles text) ∧
        ∀ text ∈ row.exclude, Compiles text := by
    simp only [List.forall_mem_append, List.forall_mem_singleton]
  constructor
  · rintro ⟨hnodup, hall⟩
    obtain ⟨hnew, hnodup⟩ := hnames.mp hnodup
    obtain ⟨hall, hlast⟩ := hglobs.mp hall
    exact ⟨⟨hnodup, hall⟩, hnew, hlast⟩
  · rintro ⟨⟨hnodup, hall⟩, hnew, hlast⟩
    exact ⟨hnames.mpr ⟨hnew, hnodup⟩, hglobs.mpr ⟨hall, hlast⟩⟩

namespace Registry

/-! ## One row -/

theorem compileGlobs_eq_ok_iff {origin : String} {row : ProjectRow}
    {globs : List Glob} :
    compileGlobs origin row = .ok globs ↔
      List.Forall₂ (fun text glob => Glob.compile text = .ok glob)
        row.exclude globs := by
  unfold compileGlobs
  rw [mapM_eq_ok_iff]
  have hmap (text : String) (glob : Glob) :
      (Glob.compile text).mapError
        (RegistryError.invalidGlob origin row.name text) = .ok glob ↔
        Glob.compile text = .ok glob := by
    cases Glob.compile text <;> simp [Except.mapError]
  simp only [hmap]

theorem compileGlobs_eq_error_iff {origin : String} {row : ProjectRow}
    {fault : RegistryError} :
    compileGlobs origin row = .error fault ↔ ∃ good text rest e,
      row.exclude = good ++ text :: rest ∧
        (∀ earlier ∈ good, Compiles earlier) ∧
        Glob.compile text = .error e ∧
          fault = .invalidGlob origin row.name text e := by
  unfold compileGlobs
  rw [mapM_eq_error_iff]
  have hok (text : String) :
      (∃ glob, (Glob.compile text).mapError
        (RegistryError.invalidGlob origin row.name text) =
        .ok glob) ↔ Compiles text := by
    cases hcompile : Glob.compile text <;>
      simp [Compiles, hcompile, Except.mapError]
  have herror (text : String) :
      (Glob.compile text).mapError
        (RegistryError.invalidGlob origin row.name text) =
        .error fault ↔
          ∃ e, Glob.compile text = .error e ∧
            fault = .invalidGlob origin row.name text e := by
    cases Glob.compile text <;> simp [Except.mapError, eq_comm]
  simp only [hok, herror, exists_and_left]

theorem exists_name_eq_iff {registry : Registry} {name : String} :
    registry.projects.any (·.name == name) ↔ name ∈ registry.names := by
  simp [names]

/-- A row is taken exactly when its name is new and its globs compile. -/
theorem addRow_eq_ok_iff {registry next : Registry} {row : ProjectRow} :
    registry.addRow row = .ok next ↔ row.name ∉ registry.names ∧
      ∃ project, row.Gives project ∧
        next =
          { registry with projects := registry.projects ++ [project] } := by
  unfold addRow
  by_cases hold : row.name ∈ registry.names
  · simp [exists_name_eq_iff.mpr hold, hold]
  · rw [if_neg (mt exists_name_eq_iff.mp hold)]
    cases hglobs : compileGlobs registry.origin row with
    | error fault =>
        have hnone (globs : List Glob) : ¬ List.Forall₂ (fun text glob =>
            Glob.compile text = .ok glob) row.exclude globs := by
          rw [← compileGlobs_eq_ok_iff, hglobs]
          exact nofun
        simp only [bind, Except.bind, reduceCtorEq, false_iff]
        rintro ⟨_, project, hgives, -⟩
        exact hnone project.exclude hgives.exclude
    | ok globs =>
        simp only [bind, Except.bind, pure, Except.pure, Except.ok.injEq]
        constructor
        · rintro rfl
          exact
            ⟨hold, _, ⟨rfl, rfl, rfl, compileGlobs_eq_ok_iff.mp hglobs⟩, rfl⟩
        · rintro ⟨_, ⟨name, uri, ref, globs'⟩, ⟨rfl, rfl, rfl, hcompiled⟩, rfl⟩
          have hsame : compileGlobs registry.origin row = .ok globs' :=
            compileGlobs_eq_ok_iff.mpr hcompiled
          rw [hglobs] at hsame
          rw [Except.ok.inj hsame]

/-- What is wrong with a row that is not taken. -/
theorem addRow_eq_error_iff {registry : Registry} {before : List ProjectRow}
    {row : ProjectRow} {fault : RegistryError}
    (hnames : registry.names = before.map ProjectRow.name) :
    registry.addRow row = .error fault ↔
      Offends registry.origin before row fault := by
  unfold addRow
  by_cases hold : row.name ∈ registry.names
  · rw [if_pos (exists_name_eq_iff.mpr hold)]
    constructor
    · intro hfault
      obtain rfl := Except.error.inj hfault
      exact .repeated (hnames ▸ hold)
    · intro hoffends
      cases hoffends with
      | repeated _ => rfl
      | badGlob hnew _ _ _ => exact absurd (hnames ▸ hold) hnew
  · rw [if_neg (mt exists_name_eq_iff.mp hold)]
    have hglobs :
        ((compileGlobs registry.origin row).bind fun exclude =>
          (.ok { registry with projects := registry.projects ++
            [⟨row.name, row.repoUri, row.repoRef, exclude⟩] } :
              Except RegistryError Registry)) = .error fault ↔
        compileGlobs registry.origin row = .error fault := by
      cases compileGlobs registry.origin row <;> simp [Except.bind]
    refine hglobs.trans (compileGlobs_eq_error_iff.trans ?_)
    constructor
    · rintro ⟨good, text, rest, e, hexclude, hgood, hbad, rfl⟩
      exact .badGlob (hnames ▸ hold) hexclude hgood hbad
    · intro hoffends
      cases hoffends with
      | repeated hmem => exact absurd (hnames ▸ hmem) hold
      | badGlob _ hexclude hgood hbad =>
          exact ⟨_, _, _, _, hexclude, hgood, hbad, rfl⟩

/-! ## All rows -/

theorem ofRows_concat (origin : String) (rows : List ProjectRow)
    (row : ProjectRow) :
    ofRows origin (rows ++ [row]) = (ofRows origin rows).bind fun registry =>
      registry.addRow row := by
  unfold ofRows
  rw [List.foldlM_append]
  cases rows.foldlM addRow ⟨origin, []⟩ with
  | error e => rfl
  | ok registry =>
      simp only [bind, Except.bind, List.foldlM_cons, List.foldlM_nil]
      cases registry.addRow row <;> rfl

/-- A loaded registry holds what its rows say, in their order. -/
theorem gives_of_ofRows {origin : String} {rows : List ProjectRow}
    {registry : Registry} (hload : ofRows origin rows = .ok registry) :
    Sound rows ∧ registry.origin = origin ∧
      List.Forall₂ ProjectRow.Gives rows registry.projects := by
  -- The last row is added to the registry of those before it.
  induction rows using List.reverseRecOn generalizing registry with
  | nil =>
      obtain rfl := Except.ok.inj hload
      exact ⟨⟨List.nodup_nil, by simp⟩, rfl, .nil⟩
  | append_singleton rows row ih =>
      rw [ofRows_concat] at hload
      cases hearlier : ofRows origin rows with
      | error e => simp [hearlier, Except.bind] at hload
      | ok earlier =>
          obtain ⟨hsound, horigin, hgives⟩ := ih hearlier
          have hadd : earlier.addRow row = .ok registry := by
            simpa [hearlier, Except.bind] using hload
          obtain ⟨hnew, project, hrow, rfl⟩ := addRow_eq_ok_iff.mp hadd
          have hnames : earlier.names = rows.map ProjectRow.name :=
            map_name_of_gives hgives
          refine ⟨sound_concat_iff.mpr ⟨hsound, hnames ▸ hnew, ?_⟩, horigin,
            List.rel_append hgives (.cons hrow .nil)⟩
          exact compiles_of_forall₂ hrow.exclude

theorem names_of_ofRows {origin : String} {rows : List ProjectRow}
    {registry : Registry} (hload : ofRows origin rows = .ok registry) :
    registry.names = rows.map ProjectRow.name :=
  map_name_of_gives (gives_of_ofRows hload).2.2

theorem exists_ofRows_of_sound {origin : String} {rows : List ProjectRow}
    (hsound : Sound rows) :
    ∃ registry, ofRows origin rows = .ok registry := by
  induction rows using List.reverseRecOn with
  | nil => exact ⟨⟨origin, []⟩, rfl⟩
  | append_singleton rows row ih =>
      obtain ⟨hearlier, hnew, hglobs⟩ := sound_concat_iff.mp hsound
      obtain ⟨earlier, hload⟩ := ih hearlier
      obtain ⟨globs, hcompiled⟩ := exists_forall₂_of_compiles hglobs
      have hadd : ∃ next, earlier.addRow row = .ok next :=
        ⟨_, addRow_eq_ok_iff.mpr ⟨names_of_ofRows hload ▸ hnew,
          ⟨row.name, row.repoUri, row.repoRef, globs⟩,
          ⟨rfl, rfl, rfl, hcompiled⟩, rfl⟩⟩
      simpa [ofRows_concat, hload, Except.bind] using hadd

/-- The error is that of the first row at fault: the rows before it are
sound. -/
theorem ofRows_eq_error_iff {origin : String} {rows : List ProjectRow}
    {fault : RegistryError} :
    ofRows origin rows = .error fault ↔
      ∃ before row after, rows = before ++ row :: after ∧
      Sound before ∧ Offends origin before row fault := by
  constructor
  · intro hfail
    induction rows using List.reverseRecOn with
    | nil => simp [ofRows, pure, Except.pure] at hfail
    | append_singleton rows row ih =>
        rw [ofRows_concat] at hfail
        cases hearlier : ofRows origin rows with
        | error earlier =>
            obtain rfl : earlier = fault := by
              simpa [hearlier, Except.bind] using hfail
            obtain ⟨before, bad, after, hsplit, hsound, hoffends⟩ :=
              ih hearlier
            exact ⟨before, bad, after ++ [row], by simp [hsplit], hsound,
              hoffends⟩
        | ok registry =>
            have hadd : registry.addRow row = .error fault := by
              simpa [hearlier, Except.bind] using hfail
            obtain ⟨hsound, horigin, -⟩ := gives_of_ofRows hearlier
            refine ⟨rows, row, [], rfl, hsound, ?_⟩
            rw [← horigin]
            exact (addRow_eq_error_iff (names_of_ofRows hearlier)).mp hadd
  · rintro ⟨before, row, after, rfl, hsound, hoffends⟩
    obtain ⟨registry, hload⟩ := @exists_ofRows_of_sound origin before hsound
    have hadd : registry.addRow row = .error fault := by
      rw [addRow_eq_error_iff (names_of_ofRows hload),
        (gives_of_ofRows hload).2.1]
      exact hoffends
    unfold ofRows at hload ⊢
    rw [List.foldlM_append, hload]
    simp [bind, Except.bind, hadd]

/-! ## Questions -/

variable {registry : Registry}

theorem mem_names_iff {name : String} :
    name ∈ registry.names ↔
      ∃ project ∈ registry.projects, project.name = name :=
  List.mem_map

/-- A project is told by its name. -/
theorem eq_of_name_eq (hnames : registry.names.Nodup) {project other : Project}
    (hproject : project ∈ registry.projects)
    (hother : other ∈ registry.projects) (hname : project.name = other.name) :
    project = other :=
  List.inj_on_of_nodup_map hnames hproject hother hname

theorem get_eq_ok_iff (hnames : registry.names.Nodup) {name : String}
    {project : Project} :
    registry.get name = .ok project ↔
      project ∈ registry.projects ∧ project.name = name := by
  unfold get
  cases hfind : registry.projects.find? (·.name == name) with
  | none =>
      simp only [reduceCtorEq, false_iff, not_and]
      intro hmem
      simpa using List.find?_eq_none.mp hfind project hmem
  | some found =>
      have hmem : found ∈ registry.projects := List.mem_of_find?_eq_some hfind
      have hname : found.name = name := by simpa using List.find?_some hfind
      simp only [Except.ok.injEq]
      constructor
      · rintro rfl
        exact ⟨hmem, hname⟩
      · rintro ⟨hproject, hsame⟩
        exact eq_of_name_eq hnames hmem hproject (hname.trans hsame.symm)

theorem get_eq_error_iff {name : String} {fault : RegistryError} :
    registry.get name = .error fault ↔
      name ∉ registry.names ∧ fault = .unknownProject name registry.names := by
  unfold get
  cases hfind : registry.projects.find? (·.name == name) with
  | none =>
      have hunknown : name ∉ registry.names := by
        rw [mem_names_iff]
        rintro ⟨project, hmem, hname⟩
        simpa [hname] using List.find?_eq_none.mp hfind project hmem
      simp [hunknown, eq_comm]
  | some found =>
      have hknown : name ∈ registry.names := mem_names_iff.mpr
        ⟨found, List.mem_of_find?_eq_some hfind,
          by simpa using List.find?_some hfind⟩
      simp [hknown]

theorem exists_get_iff {name : String} :
    (∃ project, registry.get name = .ok project) ↔ name ∈ registry.names := by
  cases hget : registry.get name with
  | error fault => simp [(get_eq_error_iff.mp hget).1]
  | ok project =>
      simp only [Except.ok.injEq, exists_eq', true_iff]
      by_contra hunknown
      simp [get_eq_error_iff.mpr ⟨hunknown, rfl⟩] at hget

theorem select_of_ne_nil {names : List String} (hne : names ≠ []) :
    registry.select names = names.mapM registry.get := by
  unfold select
  rw [if_neg (by simpa using hne)]

/-- What a registry answers: its projects by name, in the order of the names,
or its projects. -/
structure Answers (registry : Registry) : Prop where
  /-- A registered name is the name of one project. -/
  one : ∀ name ∈ registry.names, ∃! project, project ∈ registry.projects ∧
    project.name = name
  get : ∀ name project,
    registry.get name = .ok project ↔
      project ∈ registry.projects ∧ project.name = name
  getUnknown : ∀ name fault, registry.get name = .error fault ↔
    name ∉ registry.names ∧ fault = .unknownProject name registry.names
  selectAll : registry.select [] = .ok registry.projects
  select : ∀ names ≠ [], ∀ projects, registry.select names = .ok projects ↔
    List.Forall₂
      (fun name project =>
        project ∈ registry.projects ∧ project.name = name)
      names projects
  selectUnknown : ∀ names ≠ [], ∀ fault, registry.select names = .error fault ↔
    ∃ before name after, names = before ++ name :: after ∧
      (∀ known ∈ before, known ∈ registry.names) ∧
      name ∉ registry.names ∧ fault = .unknownProject name registry.names

theorem answers_of_nodup (hnames : registry.names.Nodup) :
    registry.Answers where
  one := by
    intro name hknown
    obtain ⟨project, hproject, hname⟩ := mem_names_iff.mp hknown
    refine ⟨project, ⟨hproject, hname⟩, ?_⟩
    rintro other ⟨hother, hsame⟩
    exact eq_of_name_eq hnames hother hproject (hsame.trans hname.symm)
  get := fun _ _ => get_eq_ok_iff hnames
  getUnknown := fun _ _ => get_eq_error_iff
  selectAll := rfl
  select := by
    intro names hne projects
    rw [select_of_ne_nil hne, mapM_eq_ok_iff]
    simp only [get_eq_ok_iff hnames]
  selectUnknown := by
    intro names hne fault
    rw [select_of_ne_nil hne, mapM_eq_error_iff]
    simp only [exists_get_iff, get_eq_error_iff]

/-! ## Documents -/

/-- A document that decodes to these rows. -/
def Decodes (text : String) (rows : List ProjectRow) : Prop :=
  (Toml.read? text.toList).map rowsOfMembers = some (.ok rows)

theorem read_of_decodes {origin text : String} {rows : List ProjectRow}
    (hdecodes : Decodes text rows) :
    read origin text = ofRows origin rows := by
  obtain ⟨members, hmembers, hrows⟩ := Option.map_eq_some_iff.mp hdecodes
  simp [read, hmembers, hrows, Except.mapError, bind, Except.bind]

/-- What becomes of rows: a registry of them that answers, or the error of the
first at fault. -/
structure Loads (origin : String) (rows : List ProjectRow)
    (result : Except RegistryError Registry) : Prop where
  succeeds : (∃ registry, result = .ok registry) ↔ Sound rows
  keeps : ∀ registry, result = .ok registry →
    registry.origin = origin ∧
      List.Forall₂ ProjectRow.Gives rows registry.projects
  fails : ∀ fault, result = .error fault ↔
    ∃ before row after, rows = before ++ row :: after ∧
    Sound before ∧ Offends origin before row fault
  answers : ∀ registry, result = .ok registry → registry.Answers

/-- A document of rows loads exactly when the rows are sound, and what is
loaded answers by name. -/
theorem loads_of_decodes {origin text : String} {rows : List ProjectRow}
    (hdecodes : Decodes text rows) : Loads origin rows (read origin text) := by
  rw [read_of_decodes hdecodes]
  refine ⟨⟨?_, exists_ofRows_of_sound⟩, fun _ hload =>
    (gives_of_ofRows hload).2,
    fun _ => ofRows_eq_error_iff, ?_⟩
  · rintro ⟨registry, hload⟩
    exact (gives_of_ofRows hload).1
  · intro registry hload
    apply answers_of_nodup
    rw [names_of_ofRows hload]
    exact (gives_of_ofRows hload).1.names

/-- Two rows of one name, the second with a glob that does not compile. -/
def repeatedDocument : String :=
  "[[project]]\nname = \"a\"\nrepo_uri = \"u\"\nrepo_ref = \"r\"\nexclude = [\"b\"]\n" ++
    "[[project]]\nname = \"a\"\nrepo_uri = \"v\"\nrepo_ref = \"s\"\nexclude = [\"[\"]\n"

def repeatedRows : List ProjectRow :=
  [⟨"a", "u", "r", ["b"]⟩, ⟨"a", "v", "s", ["["]⟩]

theorem decodes_repeatedDocument : Decodes repeatedDocument repeatedRows := by
  unfold Decodes
  decide +kernel

/-- The name that is there twice counts, and not the glob beside it. -/
theorem loads_repeatedDocument :
    Decodes repeatedDocument repeatedRows ∧
      Loads "o" repeatedRows (read "o" repeatedDocument) ∧
        read "o" repeatedDocument = .error (.duplicateProject "o" "a") := by
  refine ⟨decodes_repeatedDocument,
    loads_of_decodes decodes_repeatedDocument, ?_⟩
  rw [read_of_decodes decodes_repeatedDocument]
  decide +kernel

end Registry

end Reparse.Corpus
