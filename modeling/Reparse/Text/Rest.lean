/-!
# Remainders

A reader that consumes something returns what is left with the fact that it is
shorter.  Recursion on remainders ends for that reason.
-/

namespace Reparse.Text

/-- A remainder of `s` after at least one element. -/
abbrev Rest {α : Type} (s : List α) := { r : List α // r.length < s.length }

/-- A remainder of `s` after any number of elements. -/
abbrev Suffix {α : Type} (s : List α) := { r : List α // r.length ≤ s.length }

theorem length_dropWhile_le {α : Type} (p : α → Bool) (s : List α) :
    (s.dropWhile p).length ≤ s.length := by
  have h :=
    congrArg List.length (List.takeWhile_append_dropWhile (p := p) (l := s))
  rw [List.length_append] at h
  omega

/-- All of it. -/
def Suffix.self {α : Type} (s : List α) : Suffix s :=
  ⟨s, Nat.le_refl _⟩

/-- The remainder after the elements in front that satisfy `p`. -/
def Suffix.dropWhile {α : Type} (p : α → Bool) (s : List α) : Suffix s :=
  ⟨s.dropWhile p, length_dropWhile_le p s⟩

/-- What follows the first element. -/
def Rest.tail {α : Type} (c : α) (r : List α) : Rest (c :: r) :=
  ⟨r, Nat.lt_succ_self _⟩

/-- A remainder of what follows the first element. -/
def Suffix.after {α : Type} (c : α) {r : List α} (rest : Suffix r) :
    Rest (c :: r) :=
  ⟨rest.1, Nat.lt_succ_of_le rest.2⟩

def Rest.weaken {α : Type} {s : List α} (rest : Rest s) : Suffix s :=
  ⟨rest.1, Nat.le_of_lt rest.2⟩

/-- A remainder of what follows the first element. -/
def Rest.after {α : Type} (c : α) {r : List α} (rest : Rest r) :
    Rest (c :: r) :=
  rest.weaken.after c

/-- A remainder of a remainder. -/
def Suffix.rest {α : Type} {s : List α} (t : Suffix s) (rest : Rest t.1) :
    Rest s :=
  ⟨rest.1, Nat.lt_of_lt_of_le rest.2 t.2⟩

/-- A remainder of a remainder. -/
def Suffix.trans {α : Type} {s : List α} (t : Suffix s) (rest : Suffix t.1) :
    Suffix s :=
  ⟨rest.1, Nat.le_trans rest.2 t.2⟩

/-- A remainder of a remainder. -/
def Rest.trans {α : Type} {s : List α} (r : Rest s) (rest : Suffix r.1) :
    Rest s :=
  ⟨rest.1, Nat.lt_of_le_of_lt rest.2 r.2⟩

end Reparse.Text
