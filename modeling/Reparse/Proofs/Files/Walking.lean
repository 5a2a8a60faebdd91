import Reparse.Files.Path
import Reparse.Proofs.Files.Resolving

/-!
# What a walk meets

A walk meets the places that lead somewhere and whose names are all kept, and
it meets each once.  Both rest on the names of every folder being different:
looking up a name finds its first entry, and the walk goes through all of them.
Below a name only the places that go on with this name are met, so the walks of
two entries of a folder have nothing in common.
-/

namespace Reparse.Files

namespace Entry

mutual

/-- The names of every folder are different. -/
def Distinct : Entry → Prop
  | folder entries => (entries.map Prod.fst).Nodup ∧ DistinctAll entries
  | file _ => True
  | link _ => True

def DistinctAll : List (String × Entry) → Prop
  | [] => True
  | (_, entry) :: rest => entry.Distinct ∧ DistinctAll rest

end

theorem child?_eq_some_iff {entries : List (String × Entry)}
    (hnodup : (entries.map Prod.fst).Nodup) {name : String} {entry : Entry} :
    child? name (folder entries) = some entry ↔ (name, entry) ∈ entries := by
  have hlookup :
      child? name (folder entries) = (entries.find? (·.1 == name)).map (·.2) :=
    rfl
  rw [hlookup]
  constructor
  · intro hchild
    obtain ⟨⟨found, _⟩, hfind, rfl⟩ := Option.map_eq_some_iff.mp hchild
    obtain rfl : found = name := by simpa using List.find?_some hfind
    exact List.mem_of_find?_eq_some hfind
  · intro hmem
    cases hfind : entries.find? (·.1 == name) with
    | none => simpa using List.find?_eq_none.mp hfind _ hmem
    | some found =>
        have hname : found.1 = name := by simpa using List.find?_some hfind
        have hsame : found = (name, entry) :=
          List.inj_on_of_nodup_map hnodup (List.mem_of_find?_eq_some hfind)
            hmem hname
        rw [hsame, Option.map_some]

theorem at?_eq_some_iff_of_leaf {entry found : Entry}
    (hleaf : ∀ name, entry.child? name = none) {below : Place} :
    entry.at? below = some found ↔ below = [] ∧ found = entry := by
  cases below with
  | nil => simp [at?, eq_comm]
  | cons name below => simp [at?, hleaf]

variable {keep : String → Bool}

/-! ## The places that are met -/

mutual

theorem mem_walk_iff {here place : Place} {found : Entry} :
    ∀ {entry : Entry}, entry.Distinct →
    ((place, found) ∈ entry.walk keep here ↔ ∃ below, place = here ++ below ∧
      (∀ name ∈ below, keep name) ∧ entry.at? below = some found)
  | folder entries, hdistinct => by
      obtain ⟨hnodup, hall⟩ := hdistinct
      rw [walk, List.mem_cons, mem_walkAll_iff hall, Prod.mk.injEq]
      constructor
      · rintro (⟨rfl, rfl⟩ |
          ⟨name, child, below, hmem, rfl, hname, hbelow, hat⟩)
        · exact ⟨[], by simp, by simp, rfl⟩
        · refine ⟨name :: below, rfl,
            List.forall_mem_cons.mpr ⟨hname, hbelow⟩, ?_⟩
          rw [at?, (child?_eq_some_iff hnodup).mpr hmem]
          exact hat
      · rintro ⟨below, rfl, hkeep, hat⟩
        cases below with
        | nil => exact .inl ⟨by simp, (Option.some.inj hat).symm⟩
        | cons name below =>
            obtain ⟨hname, hbelow⟩ := List.forall_mem_cons.mp hkeep
            obtain ⟨child, hchild, hat⟩ := Option.bind_eq_some_iff.mp hat
            exact .inr ⟨name, child, below,
              (child?_eq_some_iff hnodup).mp hchild, rfl, hname,
              hbelow, hat⟩
  | file bytes, _ => by
      have hleaf (name : String) : (file bytes).child? name = none := rfl
      simp [walk, at?_eq_some_iff_of_leaf hleaf]
  | link target, _ => by
      have hleaf (name : String) : (link target).child? name = none := rfl
      simp [walk, at?_eq_some_iff_of_leaf hleaf]

theorem mem_walkAll_iff {here place : Place} {found : Entry} :
    ∀ {entries : List (String × Entry)}, DistinctAll entries →
      ((place, found) ∈ walkAll keep here entries ↔
        ∃ name child below, (name, child) ∈ entries ∧
        place = here ++ name :: below ∧ keep name ∧
          (∀ name ∈ below, keep name) ∧
          child.at? below = some found)
  | [], _ => by simp [walkAll]
  | (first, entry) :: rest, hall => by
      obtain ⟨hentry, hrest⟩ := hall
      rw [walkAll, List.mem_append, mem_walkAll_iff hrest]
      constructor
      · rintro (hfirst | ⟨name, child, below, hmem, hplace⟩)
        · split_ifs at hfirst with hkeep
          · obtain ⟨below, rfl, hbelow, hat⟩ := (mem_walk_iff hentry).mp hfirst
            exact ⟨first, entry, below, List.mem_cons_self, by simp, hkeep,
              hbelow, hat⟩
          · exact absurd hfirst List.not_mem_nil
        · exact ⟨name, child, below, List.mem_cons_of_mem _ hmem, hplace⟩
      · rintro ⟨name, child, below, hmem, rfl, hkeep, hbelow, hat⟩
        rcases List.mem_cons.mp hmem with hfirst | hmem
        · obtain ⟨rfl, rfl⟩ := Prod.mk.inj hfirst
          refine .inl ?_
          rw [if_pos hkeep, mem_walk_iff hentry]
          exact ⟨below, by simp, hbelow, hat⟩
        · exact .inr ⟨name, child, below, hmem, rfl, hkeep, hbelow, hat⟩

end

/-! ## Each place once -/

theorem exists_below_of_mem_walk {here place : Place} {entry : Entry}
    (hdistinct : entry.Distinct)
    (hmem : place ∈ (entry.walk keep here).map Prod.fst) :
    ∃ below, place = here ++ below := by
  obtain ⟨⟨_, found⟩, hmet, rfl⟩ := List.mem_map.mp hmem
  obtain ⟨below, hplace, -⟩ := (mem_walk_iff hdistinct).mp hmet
  exact ⟨below, hplace⟩

theorem exists_name_of_mem_walkAll {here place : Place}
    {entries : List (String × Entry)} (hall : DistinctAll entries)
    (hmem : place ∈ (walkAll keep here entries).map Prod.fst) :
    ∃ name ∈ entries.map Prod.fst, ∃ below, place = here ++ name :: below := by
  obtain ⟨⟨_, found⟩, hmet, rfl⟩ := List.mem_map.mp hmem
  obtain ⟨name, child, below, hentry, hplace, -⟩ :=
    (mem_walkAll_iff hall).mp hmet
  exact ⟨name, List.mem_map.mpr ⟨(name, child), hentry, rfl⟩, below, hplace⟩

mutual

theorem nodup_walk (here : Place) :
    ∀ {entry : Entry}, entry.Distinct →
      ((entry.walk keep here).map Prod.fst).Nodup
  | folder entries, hdistinct => by
      obtain ⟨hnodup, hall⟩ := hdistinct
      rw [walk, List.map_cons, List.nodup_cons]
      refine ⟨?_, nodup_walkAll here hnodup hall⟩
      intro hmem
      obtain ⟨name, -, below, hplace⟩ := exists_name_of_mem_walkAll hall hmem
      simp at hplace
  | file bytes, _ => by simp [walk]
  | link target, _ => by simp [walk]

theorem nodup_walkAll (here : Place) : ∀ {entries : List (String × Entry)},
    (entries.map Prod.fst).Nodup → DistinctAll entries →
      ((walkAll keep here entries).map Prod.fst).Nodup
  | [], _, _ => by simp [walkAll]
  | (first, entry) :: rest, hnodup, hall => by
      obtain ⟨hentry, hrest⟩ := hall
      obtain ⟨hnew, hnodup⟩ := List.nodup_cons.mp hnodup
      rw [walkAll]
      split_ifs with hkeep
      · rw [List.map_append]
        refine List.Nodup.append (nodup_walk (here ++ [first]) hentry)
          (nodup_walkAll here hnodup hrest) ?_
        -- What is met below `first` goes on with it, and the others go on with
        -- another name.
        intro place hfirst hothers
        obtain ⟨below, rfl⟩ := exists_below_of_mem_walk hentry hfirst
        obtain ⟨name, hname, below', hplace⟩ :=
          exists_name_of_mem_walkAll hrest hothers
        obtain ⟨rfl, -⟩ : first = name ∧ below = below' := by
          simpa using hplace
        exact hnew hname
      · exact nodup_walkAll here hnodup hrest

end

end Entry
end Reparse.Files
