import Reparse.Files.Access
import Mathlib.Data.List.DropRight
import Mathlib.Tactic

/-!
# Where paths lead

A path is resolved without a look at the files: from the folder where a program
runs, or from the root when the path is absolute, `.` stays, `..` goes back and
every other name goes on.  Resolving a joined path is resolving one path after
the other.

A relative path descends when it never goes back above the place where it
started.  Such a path leads to the same names below every place, and every
other path leads out of some place.
-/

namespace Reparse.Text

theorem splitAt_ne_nil (sep : Char) (s : List Char) : splitAt sep s ≠ [] := by
  cases s with
  | nil => simp [splitAt]
  | cons c s =>
      simp only [splitAt]
      split
      · simp
      · split <;> simp

theorem exists_splitAt_cons (sep c : Char) (s : List Char) :
    ∃ first others, splitAt sep s = first :: others ∧
      splitAt sep (c :: s) = if c = sep then [] :: first :: others
        else (c :: first) :: others := by
  obtain ⟨first, others, hpieces⟩ :=
    List.exists_cons_of_ne_nil (splitAt_ne_nil sep s)
  exact ⟨first, others, hpieces, by simp only [splitAt, hpieces]⟩

theorem splitAt_append_cons (sep : Char) (s t : List Char) :
    splitAt sep (s ++ sep :: t) = splitAt sep s ++ splitAt sep t := by
  induction s with
  | nil =>
      obtain ⟨first, others, hpieces, hcons⟩ := exists_splitAt_cons sep sep t
      rw [List.nil_append, hcons, if_pos rfl, hpieces]
      rfl
  | cons c s ih =>
      obtain ⟨first, others, hpieces, hcons⟩ := exists_splitAt_cons sep c s
      rw [List.cons_append, splitAt, ih, hpieces, hcons]
      by_cases hc : c = sep <;> simp [hc]

theorem splitAt_of_notMem {sep : Char} {s : List Char} (hsep : sep ∉ s) :
    splitAt sep s = [s] := by
  induction s with
  | nil => rfl
  | cons c s ih =>
      simp only [List.mem_cons, not_or] at hsep
      simp [splitAt, ih hsep.2, Ne.symm hsep.1]

theorem of_mem_splitAt {sep : Char} {s piece : List Char}
    (hpiece : piece ∈ splitAt sep s) :
    sep ∉ piece ∧ piece.length ≤ s.length := by
  induction s generalizing piece with
  | nil => simp_all [splitAt]
  | cons c s ih =>
      obtain ⟨first, others, hpieces, hcons⟩ := exists_splitAt_cons sep c s
      have hfirst : sep ∉ first ∧ first.length ≤ s.length :=
        ih (by simp [hpieces])
      have hothers : ∀ other ∈ others, sep ∉ other ∧ other.length ≤ s.length :=
        fun other hother => ih (by simp [hpieces, hother])
      rw [hcons] at hpiece
      split at hpiece
      all_goals grind

/-- Pieces without the separator are found again. -/
theorem splitAt_joined {sep : Char} {first : List Char}
    {others : List (List Char)} (hfirst : sep ∉ first)
    (hothers : ∀ other ∈ others, sep ∉ other) :
    splitAt sep (first ++ others.flatMap (sep :: ·)) = first :: others := by
  induction others generalizing first with
  | nil => simpa using splitAt_of_notMem hfirst
  | cons other others ih =>
      have hrest := ih (hothers other (List.mem_cons_self ..))
        (fun piece hpiece => hothers piece (List.mem_cons_of_mem _ hpiece))
      rw [List.flatMap_cons, List.cons_append, splitAt_append_cons,
        splitAt_of_notMem hfirst, hrest]
      rfl

end Reparse.Text

namespace Reparse.Files

open Text

namespace Place

def step (here : Place) (name : String) : Place :=
  if name = "." then here
  else if name = ".." then here.dropLast
  else here ++ [name]

/-- The place after one name of a path that may not go back from the start. -/
def descend? (here : Place) (name : String) : Option Place :=
  if name = "." then some here
  else if name = ".." then (if here.isEmpty then none else some here.dropLast)
  else some (here ++ [name])

/-- Neither place is the other or lies in it. -/
def Apart (place other : Place) : Prop :=
  ¬ place <+: other ∧ ¬ other <+: place

def Inside (outer inner : Place) : Prop :=
  outer <+: inner ∧ outer ≠ inner

theorem apart_append_iff {start place other : Place} :
    Apart (start ++ place) (start ++ other) ↔ Apart place other := by
  simp only [Apart, List.prefix_append_right_inj]

theorem inside_append_iff {start place : Place} :
    Inside start (start ++ place) ↔ place ≠ [] := by
  simp [Inside]

@[simp] theorem step_dot (here : Place) : step here "." = here := rfl

theorem mem_of_mem_foldl_step {names : List String} {here : Place}
    {name : String} (hname : name ∈ names.foldl step here) :
    name ∈ here ∨ name ∈ names := by
  induction names generalizing here with
  | nil => exact .inl hname
  | cons first names ih =>
      rcases ih hname with hhere | hnames
      · unfold step at hhere
        split_ifs at hhere with hdot hdots
        · exact .inl hhere
        · exact .inl (List.mem_of_mem_dropLast hhere)
        · grind
      · exact .inr (List.mem_cons_of_mem _ hnames)

theorem descend?_eq_none_iff {here : Place} {name : String} :
    descend? here name = none ↔ name = ".." ∧ here = [] := by
  unfold descend?
  split_ifs with hdot hdots hempty <;> simp_all

theorem step_append {here next : Place} {name : String}
    (hnext : descend? here name = some next) (start : Place) :
    step (start ++ here) name = start ++ next := by
  unfold descend? at hnext
  unfold step
  split_ifs at hnext ⊢ with hdot hdots hempty
  · cases hnext
    rfl
  · cases hnext
    rw [List.dropLast_append_of_ne_nil (by simpa using hempty)]
  · cases hnext
    rw [List.append_assoc]

theorem foldl_step_append {names : List String} {here there : Place}
    (hdescend : names.foldlM descend? here = some there) (start : Place) :
    names.foldl step (start ++ here) = start ++ there := by
  induction names generalizing here with
  | nil => simp_all
  | cons name names ih =>
      rw [List.foldlM_cons] at hdescend
      obtain ⟨next, hnext, hrest⟩ := Option.bind_eq_some_iff.mp hdescend
      rw [List.foldl_cons, step_append hnext]
      exact ih hrest

theorem not_prefix_foldl_step {names : List String} {here : Place}
    {root : String} (hclimb : names.foldlM descend? here = none)
    (hroot : root ∉ names) :
    ¬ [root] <+: names.foldl step ([root] ++ here) := by
  induction names generalizing here with
  | nil => simp at hclimb
  | cons name names ih =>
      have hnames : root ∉ names :=
        fun hmem => hroot (List.mem_cons_of_mem name hmem)
      rw [List.foldlM_cons] at hclimb
      rw [List.foldl_cons]
      cases hnext : descend? here name with
      | some next =>
          rw [step_append hnext]
          exact ih (by simpa [hnext] using hclimb) hnames
      | none =>
          -- The start is lost here, and only one of the names to come could
          -- put it back.
          obtain ⟨rfl, rfl⟩ := descend?_eq_none_iff.mp hnext
          intro hprefix
          have hmem : root ∈ names.foldl step (step ([root] ++ []) "..") :=
            hprefix.subset (List.mem_singleton_self root)
          rcases mem_of_mem_foldl_step hmem with hnil | hmem
          · exact absurd hnil (by simp [step])
          · exact hnames hmem

end Place

namespace Path

/-! ## The names of a path -/

/-- The names that say something, between slashes. -/
def names (path : Path) : List String :=
  ((splitAt '/' path.text.toList).filter fun piece =>
    !isIdle piece).map String.ofList

def resolve (here : Place) (path : Path) : Place :=
  path.parts.foldl Place.step (if path.isAbsolute then [] else here)

/-- The names below its start to which a path leads, unless it is absolute or
goes back from there. -/
def descent? (path : Path) : Option Place :=
  if path.isAbsolute then none else path.parts.foldlM Place.descend? []

theorem splitAt_eq_pieces (path : Path) :
    splitAt '/' path.text.toList = path.pieces.1 :: path.pieces.2 := by
  unfold pieces
  cases hpieces : splitAt '/' path.text.toList with
  | nil => exact absurd hpieces (splitAt_ne_nil _ _)
  | cons first others => rfl

theorem names_eq_pieces (path : Path) : path.names =
    ((path.pieces.1 :: path.pieces.2).filter fun piece =>
      !isIdle piece).map String.ofList := by
  rw [names, splitAt_eq_pieces]

theorem parts_eq_pieces (path : Path) : path.parts =
    ((if path.pieces.1.isEmpty then [] else [path.pieces.1]) ++
      path.pieces.2.filter fun piece => !isIdle piece).map String.ofList := rfl

/-- The parts of a path are its names, and a first part may say nothing. -/
theorem parts_eq_names (path : Path) :
    path.parts = path.names ∨ path.parts = "." :: path.names := by
  rw [parts_eq_pieces, names_eq_pieces]
  by_cases hempty : path.pieces.1 = []
  · left
    simp [hempty, isIdle]
  · by_cases hdot : path.pieces.1 = ['.']
    · right
      simp [hdot, isIdle]
    · left
      simp [hempty, hdot, isIdle]

theorem resolve_eq_names (here : Place) (path : Path) :
    path.resolve here =
      path.names.foldl Place.step (if path.isAbsolute then [] else here) := by
  unfold resolve
  rcases path.parts_eq_names with hparts | hparts <;> rw [hparts]
  rw [List.foldl_cons, Place.step_dot]

theorem descent?_eq_names (path : Path) :
    path.descent? = if path.isAbsolute then none
      else path.names.foldlM Place.descend? [] := by
  unfold descent?
  rcases path.parts_eq_names with hparts | hparts <;> rw [hparts]
  rfl

theorem length_le_of_mem_names {path : Path} {name : String}
    (hname : name ∈ path.names) :
    name.length ≤ path.text.length := by
  obtain ⟨piece, hpiece, rfl⟩ := List.mem_map.mp hname
  have hle := (of_mem_splitAt (List.mem_of_mem_filter hpiece)).2
  simpa [← String.length_toList] using hle

/-! ## Joined paths -/

theorem names_slash (first second : String) :
    names ⟨first ++ "/" ++ second⟩ = names ⟨first⟩ ++ names ⟨second⟩ := by
  have htext :
      (first ++ "/" ++ second).toList =
        first.toList ++ '/' :: second.toList := by
    simp
  simp only [names, htext, splitAt_append_cons, List.filter_append,
    List.map_append]

theorem names_trailing (text : String) :
    names ⟨text ++ "/"⟩ = names ⟨text⟩ := by
  have hnames := names_slash text ""
  rw [String.append_empty] at hnames
  rw [hnames]
  simp [names, splitAt, isIdle]

theorem isAbsolute_join (path other : Path) :
    (path.join other).isAbsolute = (other.isAbsolute || path.isAbsolute) := by
  unfold join
  by_cases hother : other.isAbsolute = true
  · simp [hother]
  · by_cases hempty : path.text = ""
    · simp [hempty, isAbsolute]
    · have hne : path.text.toList ≠ [] := by simpa using hempty
      obtain ⟨c, cs, hpath⟩ := List.exists_cons_of_ne_nil hne
      simp only [hother]
      split_ifs <;> simp_all [isAbsolute]

theorem names_join {path other : Path} (hother : other.isAbsolute = false) :
    (path.join other).names = path.names ++ other.names := by
  unfold join
  by_cases hempty : path.text = ""
  · have hnames : path.names = [] := by simp [names, hempty, splitAt, isIdle]
    simp [hempty, hnames]
  · have hnone : (other.isAbsolute || path.text.isEmpty) = false := by
      simp [hother, hempty]
    simp only [hnone, Bool.false_eq_true, if_false]
    split_ifs with hlast
    · obtain ⟨cs, hcs⟩ := List.getLast?_eq_some_iff.mp hlast
      have htext : path.text = String.ofList cs ++ "/" := by
        rw [← String.toList_inj]
        simpa using hcs
      have hpath : path.names = names ⟨String.ofList cs⟩ :=
        calc path.names = names ⟨String.ofList cs ++ "/"⟩ := by rw [← htext]
          _ = names ⟨String.ofList cs⟩ := names_trailing _
      rw [htext, names_slash, hpath]
    · exact names_slash path.text other.text

theorem resolve_join (here : Place) (path other : Path) :
    (path.join other).resolve here = other.resolve (path.resolve here) := by
  cases hother : other.isAbsolute with
  | true =>
      have hjoin : path.join other = other := by simp [join, hother]
      rw [hjoin]
      simp [resolve, hother]
  | false =>
      rw [resolve_eq_names, resolve_eq_names, resolve_eq_names,
        isAbsolute_join, names_join hother,
        List.foldl_append]
      simp [hother]

/-! ## Parents -/

theorem isAbsolute_iff (path : Path) :
    path.isAbsolute = true ↔ path.pieces.1 = [] ∧ path.pieces.2 ≠ [] := by
  have hpieces := path.splitAt_eq_pieces
  unfold isAbsolute
  cases htext : path.text.toList with
  | nil =>
      rw [htext] at hpieces
      simp_all [splitAt]
  | cons c s =>
      obtain ⟨first, others, -, hcons⟩ := exists_splitAt_cons '/' c s
      rw [htext, hcons] at hpieces
      by_cases hc : c = '/'
      · rw [if_pos hc] at hpieces
        obtain ⟨hempty, hothers⟩ := List.cons.inj hpieces
        simp [← hempty, ← hothers, hc]
      · rw [if_neg hc] at hpieces
        obtain ⟨hfirst, -⟩ := List.cons.inj hpieces
        simp [← hfirst, hc]

theorem trimIdle_concat {others : List (List Char)}
    (hne : trimIdle others ≠ []) :
    ∃ init last, trimIdle others = init ++ [last] ∧ isIdle last = false := by
  refine ⟨_, _, (List.dropLast_append_getLast hne).symm, ?_⟩
  have hlast := List.rdropWhile_last_not isIdle others hne
  rwa [Bool.not_eq_true] at hlast

theorem filter_trimIdle (others : List (List Char)) :
    ((trimIdle others).filter fun piece => !isIdle piece) =
      others.filter fun piece => !isIdle piece := by
  have hall : ∀ pieces : List (List Char),
      ((pieces.dropWhile isIdle).filter fun piece => !isIdle piece) =
        pieces.filter fun piece => !isIdle piece := by
    intro pieces
    induction pieces with
    | nil => rfl
    | cons piece pieces ih =>
        cases hidle : isIdle piece <;> simp [hidle, ih]
  unfold trimIdle
  rw [List.filter_reverse, hall, List.filter_reverse, List.reverse_reverse]

theorem pieces_ofPieces {first : List Char} {others : List (List Char)}
    (hfirst : '/' ∉ first) (hothers : ∀ other ∈ others, '/' ∉ other) :
    (ofPieces first others).pieces = (first, others) := by
  unfold pieces ofPieces
  rw [String.toList_ofList, splitAt_joined hfirst hothers]

theorem notMem_pieces {path : Path} {piece : List Char}
    (hpiece : piece ∈ path.pieces.1 :: path.pieces.2) : '/' ∉ piece := by
  rw [← splitAt_eq_pieces] at hpiece
  exact (of_mem_splitAt hpiece).1

theorem mem_of_mem_trimIdle {others : List (List Char)} {piece : List Char}
    (hpiece : piece ∈ trimIdle others) : piece ∈ others :=
  (List.rdropWhile_prefix isIdle others).subset hpiece

/-- What the parent of a path says, where the names after the first are
known. -/
theorem parent?_of_trimIdle {path : Path} {init : List (List Char)}
    {last : List Char} (htrim : trimIdle path.pieces.2 = init ++ [last]) :
    ∃ parent, path.parent? = some parent ∧
      path.isAbsolute = parent.isAbsolute ∧
      parent.names =
        ((path.pieces.1 :: init).filter fun piece =>
          !isIdle piece).map String.ofList := by
  have hfirst : '/' ∉ path.pieces.1 := notMem_pieces (List.mem_cons_self ..)
  have hinit : ∀ piece ∈ trimIdle init, '/' ∉ piece := by
    intro piece hpiece
    have hmem : piece ∈ trimIdle path.pieces.2 := by
      rw [htrim]
      exact List.mem_append_left _ (mem_of_mem_trimIdle hpiece)
    exact notMem_pieces (List.mem_cons_of_mem _ (mem_of_mem_trimIdle hmem))
  have hothers : path.pieces.2 ≠ [] := by
    intro hnil
    simp [hnil, trimIdle] at htrim
  have habsolute : path.isAbsolute = path.pieces.1.isEmpty := by
    rw [Bool.eq_iff_iff, isAbsolute_iff]
    simp [hothers]
  have hparent :
      path.parent? =
        some (if trimIdle init = [] ∧ path.pieces.1 = [] then ⟨"/"⟩
      else ofPieces path.pieces.1 (trimIdle init)) := by
    unfold parent?
    simp only [htrim]
    cases hinit : trimIdle init <;> cases hfirst : path.pieces.1 <;>
      simp_all [ofPieces]
  have hfilter := filter_trimIdle init
  refine ⟨_, hparent, ?_⟩
  split_ifs with hroot
  · obtain ⟨hnil, hempty⟩ := hroot
    refine ⟨by simp [habsolute, hempty]; rfl, ?_⟩
    have hidle : (init.filter fun piece => !isIdle piece) = [] := by
      rw [← hfilter, hnil]
      rfl
    rw [List.filter_cons, hempty, hidle]
    rfl
  · have hpieces := pieces_ofPieces hfirst hinit
    constructor
    · rw [habsolute, Bool.eq_iff_iff, isAbsolute_iff, hpieces,
        List.isEmpty_iff]
      constructor
      · intro hempty
        refine ⟨hempty, ?_⟩
        intro hnil
        exact hroot ⟨hnil, hempty⟩
      · exact And.left
    · rw [names_eq_pieces, hpieces, List.filter_cons, List.filter_cons,
        hfilter]

theorem ne_of_fileName? {path : Path} {name : String}
    (hname : path.fileName? = some name) :
    name ≠ "." ∧ name ≠ ".." := by
  have hnamed := (Option.filter_eq_some_iff.mp hname).2
  simpa using hnamed

/-- The last name of a path comes after the names of its parent. -/
theorem parent?_of_fileName? {path : Path} {name : String}
    (hname : path.fileName? = some name) :
    ∃ parent, path.parent? = some parent ∧
      path.isAbsolute = parent.isAbsolute ∧
      path.names = parent.names ++ [name] := by
  have hlast := (Option.filter_eq_some_iff.mp hname).1
  have hdot := (ne_of_fileName? hname).1
  have hnames : path.names = ((path.pieces.1 :: trimIdle path.pieces.2).filter
      fun piece => !isIdle piece).map String.ofList := by
    rw [names_eq_pieces, List.filter_cons, List.filter_cons, filter_trimIdle]
  rw [parts_eq_pieces, ← filter_trimIdle] at hlast
  by_cases htrim : trimIdle path.pieces.2 = []
  · rw [htrim] at hlast hnames
    have hfirst : path.pieces.1 ≠ [] := by
      intro hempty
      simp [hempty] at hlast
    have hrelative : path.isAbsolute = false := by
      rw [← Bool.not_eq_true, isAbsolute_iff]
      exact fun hroot => hfirst hroot.1
    obtain rfl : String.ofList path.pieces.1 = name := by
      simpa [hfirst] using hlast
    have hbusy : isIdle path.pieces.1 = false := by
      have hdot' : path.pieces.1 ≠ ['.'] := fun heq => hdot (by rw [heq])
      simp [isIdle, hfirst, hdot']
    refine ⟨⟨""⟩, by simp [parent?, htrim, hfirst], hrelative, ?_⟩
    have hempty : names ⟨""⟩ = [] := rfl
    simp [hnames, hempty, hbusy]
  · obtain ⟨init, last, htrim, hbusy⟩ := trimIdle_concat htrim
    obtain ⟨parent, hparent, habsolute, hinit⟩ := parent?_of_trimIdle htrim
    rw [htrim] at hlast hnames
    obtain rfl : String.ofList last = name := by simpa [hbusy] using hlast
    refine ⟨parent, hparent, habsolute, ?_⟩
    rw [hnames, hinit, ← List.cons_append, List.filter_append, List.map_append]
    simp [hbusy]

/-! ## Descents -/

theorem resolve_of_descent? {path : Path} {below : Place}
    (hdescent : path.descent? = some below) (here : Place) :
    path.resolve here = here ++ below := by
  unfold descent? at hdescent
  split_ifs at hdescent with habsolute
  unfold resolve
  rw [if_neg habsolute]
  simpa using Place.foldl_step_append hdescent here

/-- A path without a descent leads out of every folder that has a new name. -/
theorem not_prefix_resolve_of_descent? {path : Path}
    (hdescent : path.descent? = none) {root : String}
    (hroot : root ∉ path.names) : ¬ [root] <+: path.resolve [root] := by
  rw [descent?_eq_names] at hdescent
  rw [resolve_eq_names]
  split_ifs at hdescent ⊢ with habsolute
  · intro hprefix
    have hmem := hprefix.subset (List.mem_singleton_self root)
    rcases Place.mem_of_mem_foldl_step hmem with hnil | hmem
    · cases hnil
    · exact hroot hmem
  · simpa using Place.not_prefix_foldl_step hdescent hroot

/-- A name that is one name of a folder. -/
def IsPlainName (name : String) : Prop :=
  name ≠ "" ∧ name ≠ "." ∧ name ≠ ".." ∧ '/' ∉ name.toList

theorem descent?_of_isPlainName {name : String} (hname : IsPlainName name) :
    descent? ⟨name⟩ = some [name] := by
  obtain ⟨hempty, hdot, hdots, hslash⟩ := hname
  have habsolute : isAbsolute ⟨name⟩ = false := by
    simp only [isAbsolute, beq_eq_false_iff_ne]
    exact fun hhead => hslash (List.mem_of_mem_head? hhead)
  have hbusy : isIdle name.toList = false := by
    have hdot' : name.toList ≠ ['.'] :=
      fun heq => hdot (String.toList_inj.mp heq)
    simpa [isIdle, hdot'] using hempty
  have hnames : names ⟨name⟩ = [name] := by
    simp [names, splitAt_of_notMem hslash, hbusy]
  rw [descent?_eq_names, hnames]
  simp [habsolute, Place.descend?, hdot, hdots]

end Path

end Reparse.Files
