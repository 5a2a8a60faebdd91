import Reparse.Corpus.Verify
import Reparse.Proofs.Files.Walking
import Mathlib.Data.List.Sort
import Mathlib.Data.String.Basic
import Mathlib.Tactic

/-!
# The source files of a checkout

The source files of a checkout are what the walk meets, with three questions
asked of each: whether it is a file, whether its last name has the extension,
and whether its path is excluded.  What git keeps is never asked, since the
walk does not go there; a folder that is excluded is walked all the same, and
the question is put to each file in it.  The places are then sorted, and since
the walk meets a place once, every place stands strictly before the next.
-/

namespace Reparse.Text

theorem eq_nil_of_splitAt {sep : Char} {s : List Char}
    (hpieces : splitAt sep s = [[]]) : s = [] := by
  cases s with
  | nil => rfl
  | cons c s =>
      obtain ⟨first, others, -, hcons⟩ := exists_splitAt_cons sep c s
      rw [hcons] at hpieces
      split_ifs at hpieces <;> simp at hpieces

theorem exists_last_of_mem {sep : Char} {s : List Char} (hsep : sep ∈ s) :
    ∃ stem last, s = stem ++ sep :: last ∧ sep ∉ last := by
  obtain ⟨last, stem, hreverse, hlast⟩ :=
    List.eq_append_cons_of_mem (List.mem_reverse.mpr hsep)
  refine ⟨stem.reverse, last.reverse, ?_, by simpa using hlast⟩
  rw [← List.reverse_reverse s, hreverse]
  simp

end Reparse.Text

namespace Reparse.Files

open Text

/-! ## Extensions and the order of places -/

/-- A name with something, a point and the extension, which has no other
point. -/
def HasExtension (ext name : String) : Prop :=
  name ≠ ".." ∧ '.' ∉ ext.toList ∧
    ∃ stem ≠ [], name.toList = stem ++ '.' :: ext.toList

theorem Path.extensionOf?_of_split {name : String} {stem last : List Char}
    (hname : name.toList = stem ++ '.' :: last) (hlast : '.' ∉ last) :
    extensionOf? name = if stem = [] ∨ name = ".." then none
      else some (String.ofList last) := by
  have hpieces : splitAt '.' name.toList = splitAt '.' stem ++ [last] := by
    rw [hname, splitAt_append_cons, splitAt_of_notMem hlast]
  by_cases hstem : stem = []
  · simp [extensionOf?, hpieces, hstem, splitAt]
  -- Two pieces of which the first is empty are the pieces of a name that
  -- begins with its one point.
  have hhidden :
      ¬ ((splitAt '.' stem).length = 1 ∧
        (splitAt '.' stem).head? = some []) := by
    rintro ⟨hone, hhead⟩
    obtain ⟨piece, hpiece⟩ := List.length_eq_one_iff.mp hone
    rw [hpiece] at hhead
    obtain rfl : piece = [] := by simpa using hhead
    exact hstem (eq_nil_of_splitAt hpiece)
  have hhead : (splitAt '.' stem ++ [last]).head? = (splitAt '.' stem).head? :=
    List.head?_append_of_ne_nil _ (splitAt_ne_nil '.' stem)
  simp [extensionOf?, hpieces, hhead, hstem, hhidden, splitAt_ne_nil]

theorem Path.extensionOf?_eq_some_iff {name ext : String} :
    extensionOf? name = some ext ↔ HasExtension ext name := by
  constructor
  · intro hext
    by_cases hpoint : '.' ∈ name.toList
    · obtain ⟨stem, last, hname, hlast⟩ := exists_last_of_mem hpoint
      rw [extensionOf?_of_split hname hlast] at hext
      split_ifs at hext with hnone
      rw [not_or] at hnone
      obtain rfl : String.ofList last = ext := Option.some.inj hext
      exact ⟨hnone.2, by simpa using hlast, stem, hnone.1,
        by simpa using hname⟩
    · simp [extensionOf?, splitAt_of_notMem hpoint] at hext
  · rintro ⟨hdots, hpoint, stem, hstem, hname⟩
    rw [extensionOf?_of_split hname hpoint]
    simp [hstem, hdots]

theorem partsLe_iff {parts others : List String} :
    partsLe parts others ↔ ¬ others < parts := by
  induction parts generalizing others with
  | nil => simp [partsLe]
  | cons a parts ih =>
      cases others with
      | nil => simp [partsLe]
      | cons b others =>
          rw [List.cons_lt_cons_iff, not_or, not_and, partsLe, Bool.or_eq_true,
            Bool.and_eq_true, ih, decide_eq_true_iff, beq_iff_eq]
          rcases lt_trichotomy a b with hlt | rfl | hlt
          · simp only [hlt, hlt.not_gt, hlt.ne', true_or, not_false_eq_true,
              false_implies, and_self]
          · simp only [lt_irrefl, false_or, true_and, not_false_eq_true,
              true_implies]
          · simp only [hlt, hlt.not_gt, hlt.ne', false_and, or_self,
              not_true_eq_false]

theorem pairwise_mergeSort_of_nodup {places : List Place}
    (hnodup : places.Nodup) :
    (places.mergeSort partsLe).Pairwise (· < ·) := by
  have hsorted : (places.mergeSort partsLe).Pairwise fun a b =>
    partsLe a b := by
    apply List.pairwise_mergeSort
    · intro a b c hab hbc
      rw [partsLe_iff, not_lt] at hab hbc ⊢
      exact hab.trans hbc
    · intro a b
      rw [Bool.or_eq_true, partsLe_iff, partsLe_iff, not_lt, not_lt]
      exact le_total a b
  refine List.Pairwise.imp₂ ?_ hsorted
    ((List.mergeSort_perm _ _).nodup_iff.mpr hnodup)
  intro a b hle hne
  exact lt_of_le_of_ne (not_lt.mp (partsLe_iff.mp hle)) hne

end Reparse.Files

namespace Reparse.Corpus

open Files

/-- A file below an entry that has the extension, lies in nothing that git
keeps and is not excluded. -/
structure IsSource (excluded : String → Bool) (ext : String) (entry : Entry)
    (place : Place) : Prop where
  file : ∃ bytes, entry.at? place = some (.file bytes)
  extension : ∃ name ∈ place.getLast?, HasExtension ext name
  notGit : gitFolder ∉ place
  kept : excluded (Path.ofParts place).text = false

variable {excluded : String → Bool} {ext : String} {root : Path}
variable {entry : Entry}

theorem isFile_iff : entry.isFile ↔ ∃ bytes, entry = .file bytes := by
  cases entry <;> simp [Entry.isFile]

theorem hasExtension_iff {place : Place} (hne : place ≠ []) :
    hasExtension ext root place entry ↔
      (∃ bytes, entry = .file bytes) ∧
        ∃ name ∈ place.getLast?, HasExtension ext name := by
  obtain ⟨name, hname⟩ : ∃ name, place.getLast? = some name :=
    ⟨place.getLast hne, List.getLast?_eq_some_getLast hne⟩
  simp [hasExtension, hname, isFile_iff, Path.extensionOf?_eq_some_iff]

/-- The source files are told by their places, whatever the walk saw on its
way. -/
theorem mem_sourcePlaces_iff {entries : List (String × Entry)}
    (hdistinct : (Entry.folder entries).Distinct) {place : Place} :
    place ∈ sourcePlaces excluded ext root (.folder entries) ↔
      IsSource excluded ext (.folder entries) place := by
  have hkeep : (∀ name ∈ place, (name != gitFolder) = true) ↔
      gitFolder ∉ place := by
    simp only [bne_iff_ne, ne_eq]
    constructor
    · intro hall hmem
      exact hall gitFolder hmem rfl
    · rintro hgit name hname rfl
      exact hgit hname
  have hmet (found : Entry) :
      (place, found) ∈ (Entry.folder entries).walk (· != gitFolder) [] ↔
      gitFolder ∉ place ∧ (Entry.folder entries).at? place = some found := by
    rw [Entry.mem_walk_iff hdistinct, ← hkeep]
    simp
  -- The folder itself has no name to ask, and it is no file.
  have hne (hfile : ∃ bytes, (Entry.folder entries).at? place =
      some (.file bytes)) : place ≠ [] := by
    rintro rfl
    obtain ⟨bytes, hat⟩ := hfile
    exact Entry.noConfusion (Option.some.inj hat)
  unfold sourcePlaces
  rw [List.mem_mergeSort, List.mem_map]
  constructor
  · rintro ⟨⟨_, found⟩, hfound, rfl⟩
    obtain ⟨hwalk, hasked⟩ := List.mem_filter.mp hfound
    obtain ⟨hgit, hat⟩ := (hmet found).mp hwalk
    obtain ⟨hextension, hkept⟩ := (Bool.and_eq_true _ _).mp hasked
    have hfile : ∃ bytes, found = .file bytes :=
      isFile_iff.mp ((Bool.and_eq_true _ _).mp hextension).1
    obtain ⟨bytes, rfl⟩ := hfile
    have hended := (hasExtension_iff (hne ⟨bytes, hat⟩)).mp hextension
    exact ⟨⟨bytes, hat⟩, hended.2, hgit, by simpa using hkept⟩
  · rintro ⟨⟨bytes, hat⟩, hextension, hgit, hkept⟩
    refine ⟨(place, .file bytes),
      List.mem_filter.mpr ⟨(hmet _).mpr ⟨hgit, hat⟩, ?_⟩, rfl⟩
    apply (Bool.and_eq_true _ _).mpr
    constructor
    · apply (hasExtension_iff (hne ⟨bytes, hat⟩)).mpr
      exact ⟨⟨bytes, rfl⟩, hextension⟩
    · simp [hkept]

theorem pairwise_sourcePlaces (hdistinct : entry.Distinct) :
    (sourcePlaces excluded ext root entry).Pairwise (· < ·) := by
  apply pairwise_mergeSort_of_nodup
  exact ((List.filter_sublist ..).map Prod.fst).nodup
    (Entry.nodup_walk [] hdistinct)

/-- The source files below a folder are found, each once, in the order of their
places. -/
theorem findSources_exact {files : Entry} {entries : List (String × Entry)}
    (hfind : files.find root = .ok (.folder entries))
    (hdistinct : (Entry.folder entries).Distinct)
    (hroot : lastName root ≠ gitFolder) :
    ∃ places, findSources excluded files root ext = .ok places ∧
      (∀ place, place ∈ places ↔
        IsSource excluded ext (.folder entries) place) ∧
      places.Pairwise (· < ·) ∧
      ∀ project : Project, project.excludes = excluded →
        project.sourceFiles files root ext = .ok places := by
  have hsources : findSources excluded files root ext =
      .ok (sourcePlaces excluded ext root (.folder entries)) := by
    unfold findSources
    rw [hfind]
    exact if_neg hroot
  refine ⟨_, hsources, fun _ =>
    mem_sourcePlaces_iff hdistinct, pairwise_sourcePlaces hdistinct, ?_⟩
  rintro project rfl
  rw [Project.sourceFiles, hsources]
  rfl

/-- A checkout with a file that git keeps, a link, an excluded folder and files
of other kinds. -/
def mixedCheckout : List (String × Entry) :=
  [("lib",
    .folder [("b.toy", .file []), ("a.toy", .file []), ("a.txt", .file [])]),
    (".git", .folder [("c.toy", .file [])]),
    ("out", .folder [("d.toy", .file [])]),
    (".toy", .file []), ("l.toy", .link "lib/a.toy"), ("a.toy", .file [])]

theorem findSources_mixedCheckout :
    let files : Entry := .folder [("work", .folder mixedCheckout)]
    let excluded : String → Bool := (·.startsWith "out/")
    files.find ⟨"work"⟩ = .ok (.folder mixedCheckout) ∧
      (Entry.folder mixedCheckout).Distinct ∧
      lastName ⟨"work"⟩ ≠ gitFolder ∧
        ∃ places, findSources excluded files ⟨"work"⟩ "toy" = .ok places ∧
          ∀ place, place ∈ places ↔
            IsSource excluded "toy" (.folder mixedCheckout) place := by
  have hfind : (Entry.folder [("work", .folder mixedCheckout)]).find ⟨"work"⟩ =
      .ok (.folder mixedCheckout) := by
    rfl
  have hdistinct : (Entry.folder mixedCheckout).Distinct := by
    simp [mixedCheckout, Entry.Distinct, Entry.DistinctAll]
  have hroot : lastName ⟨"work"⟩ ≠ gitFolder := by decide +kernel
  obtain ⟨places, hplaces, hmem, -⟩ := findSources_exact hfind hdistinct hroot
  exact ⟨hfind, hdistinct, hroot, places, hplaces, hmem⟩

end Reparse.Corpus
