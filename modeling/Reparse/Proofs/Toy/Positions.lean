import Reparse.Proofs.Toy.Escapes
import Mathlib.Data.List.TakeWhile

/-!
# Positions in a text

Reading moves the place as the characters that are read do, so that the place
reached in a text is told by its lines.  A column further on lies in the text
exactly if it does not go past the end of the line: this is so after characters
of that line, and need not be so after a fixed number of columns.
-/

namespace Reparse.Toy

open Text

/-- The line is a line of the text, and the column is at most one behind its
last character. -/
def InText (text : List Char) (line column : Nat) : Prop :=
  1 ≤ line ∧ 1 ≤ column ∧ ∃ l, (text.splitOn '\n')[line - 1]? = some l ∧
    column ≤ l.length + 1

/-- The characters of the line that are left. -/
def lineRest (s : List Char) : List Char :=
  s.takeWhile (· != '\n')

/-- From `p` with `s` in front, reading comes to `q` with `t` in front. -/
def Moves (p : Place) (s : List Char) (q : Place) (t : List Char) : Prop :=
  ∃ taken, s = taken ++ t ∧ q = p.walk taken

/-- The place is where `s` is left of the text. -/
abbrev Stands (text : List Char) : Place → List Char → Prop :=
  Moves .start text

/-- The characters begin `s` and stand on one line. -/
structure Leads (taken s : List Char) : Prop where
  exists_append : ∃ rest, s = taken ++ rest
  oneLine : '\n' ∉ taken

/-! ## Characters on one line -/

section Leads

variable {c : Char} {p : Place} {s t u : List Char}

theorem Leads.nil : Leads [] s :=
  ⟨⟨s, rfl⟩, List.not_mem_nil⟩

theorem Leads.cons (hc : c ≠ '\n') (ht : Leads t s) :
    Leads (c :: t) (c :: s) := by
  obtain ⟨⟨rest, rfl⟩, hline⟩ := ht
  exact ⟨⟨rest, rfl⟩, by simp [hc.symm, hline]⟩

theorem Leads.append (ht : Leads t s) (hu : Leads u (s.drop t.length)) :
    Leads (t ++ u) s := by
  obtain ⟨⟨rest, rfl⟩, hline⟩ := ht
  rw [List.drop_left] at hu
  obtain ⟨⟨rest', rfl⟩, hline'⟩ := hu
  exact ⟨⟨rest', by simp⟩, by simp [hline, hline']⟩

theorem leads_takeWhile {p : Char → Bool} (hp : p '\n' = false) :
    Leads (s.takeWhile p) s := by
  refine ⟨⟨s.dropWhile p, List.takeWhile_append_dropWhile.symm⟩,
    fun hmem => ?_⟩
  have hfeed := List.mem_takeWhile_imp hmem
  rw [hp] at hfeed
  cases hfeed

theorem Leads.moves (ht : Leads t s) :
    Moves p s (p.skip t.length) (s.drop t.length) := by
  obtain ⟨⟨rest, rfl⟩, hline⟩ := ht
  exact ⟨t, by rw [List.drop_left], (Place.walk_of_notMem hline).symm⟩

theorem Leads.length_le (ht : Leads t s) : t.length ≤ (lineRest s).length := by
  obtain ⟨⟨rest, rfl⟩, hline⟩ := ht
  rw [lineRest, List.takeWhile_append_of_pos (bne_of_notMem hline),
    List.length_append]
  exact Nat.le_add_right _ _

theorem length_lineRest_le :
    (lineRest (s ++ '\n' :: t)).length ≤ s.length := by
  induction s with
  | nil => exact Nat.le_refl 0
  | cons c s ih =>
      unfold lineRest at ih ⊢
      rw [List.cons_append, List.takeWhile_cons]
      split
      · exact Nat.succ_le_succ ih
      · exact Nat.zero_le _

end Leads

/-! ## Places and lines -/

section Lines

variable {c : Char} {text s : List Char} {p : Place}

theorem splitOn_lineFeed :
    ('\n' :: s).splitOn '\n' = [] :: s.splitOn '\n' := by
  simp [List.splitOn, List.splitOnP_cons_eq_if_modifyHead]

theorem splitOn_cons (hc : c ≠ '\n') :
    (c :: s).splitOn '\n' = (s.splitOn '\n').modifyHead (c :: ·) := by
  simp [List.splitOn, List.splitOnP_cons_eq_if_modifyHead, hc]

theorem getElem?_splitOn_zero (s : List Char) :
    (s.splitOn '\n')[0]? = some (lineRest s) := by
  induction s with
  | nil => rfl
  | cons c s ih =>
      unfold lineRest at ih ⊢
      by_cases hc : c = '\n'
      · subst hc
        rw [splitOn_lineFeed]
        simp
      · rw [splitOn_cons hc]
        simp [hc, ih]

/-- Walking on from a place, the line that is reached is as many lines further
as there were line feeds, and what is left of it makes up its length. -/
theorem exists_line (p : Place) (before after : List Char) :
    ∃ k l, (p.walk before).line = p.line + k ∧
      ((before ++ after).splitOn '\n')[k]? = some l ∧
      l.length + (if k = 0 then p.column else 1) =
        (p.walk before).column + (lineRest after).length := by
  induction before generalizing p with
  | nil =>
      exact ⟨0, lineRest after, rfl, getElem?_splitOn_zero after,
        by simp [Nat.add_comm]⟩
  | cons c before ih =>
      by_cases hc : c = '\n'
      · subst hc
        obtain ⟨k, l, hline, hl, hlength⟩ := ih p.newLine
        have hcolumn : p.newLine.column = 1 := rfl
        refine ⟨k + 1, l, ?_, ?_, ?_⟩
        · rw [Place.walk_cons, Place.step_lineFeed, hline]
          simp only [Place.newLine]
          omega
        · rw [List.cons_append, splitOn_lineFeed]
          simpa using hl
        · rw [hcolumn, ite_self] at hlength
          rw [if_neg (Nat.succ_ne_zero k), Place.walk_cons,
            Place.step_lineFeed, hlength]
      · obtain ⟨k, l, hline, hl, hlength⟩ := ih (p.skip 1)
        rw [Place.walk_cons, Place.step_of_ne hc, List.cons_append,
          splitOn_cons hc]
        cases k with
        | zero =>
            refine ⟨0, c :: l, hline, ?_, ?_⟩
            · simp [hl]
            · simp only [if_true, Place.skip, List.length_cons] at hlength ⊢
              omega
        | succ k =>
            refine ⟨k + 1, l, hline, ?_, ?_⟩
            · simpa using hl
            · simpa using hlength

theorem one_le_column_walk (hp : 1 ≤ p.column) (s : List Char) :
    1 ≤ (p.walk s).column := by
  induction s generalizing p with
  | nil => exact hp
  | cons c s ih =>
      rw [Place.walk_cons]
      apply ih
      by_cases hc : c = '\n'
      · rw [hc, Place.step_lineFeed]
        exact Nat.le_refl 1
      · rw [Place.step_of_ne hc]
        exact Nat.le_add_right_of_le hp

theorem Moves.refl (p : Place) (s : List Char) : Moves p s p s :=
  ⟨[], rfl, rfl⟩

theorem Moves.trans {q r : Place} {t u : List Char} (hfirst : Moves p s q t)
    (hsecond : Moves q t r u) : Moves p s r u := by
  obtain ⟨taken, rfl, rfl⟩ := hfirst
  obtain ⟨taken', rfl, rfl⟩ := hsecond
  exact ⟨taken ++ taken', by rw [List.append_assoc], Place.walk_append.symm⟩

theorem Stands.exists_line (hstands : Stands text p s) :
    1 ≤ p.line ∧ 1 ≤ p.column ∧
      ∃ l, (text.splitOn '\n')[p.line - 1]? = some l ∧
      l.length + 1 = p.column + (lineRest s).length := by
  obtain ⟨before, rfl, rfl⟩ := hstands
  obtain ⟨k, l, hline, hl, hlength⟩ := Toy.exists_line .start before s
  have hstart : Place.start.line = 1 ∧ Place.start.column = 1 := ⟨rfl, rfl⟩
  rw [hstart.2, ite_self] at hlength
  refine ⟨by omega, one_le_column_walk (Nat.le_refl 1) before, l, ?_, hlength⟩
  rw [hline, hstart.1, Nat.add_sub_cancel_left]
  exact hl

/-- A column further on the same line lies in the text as long as the line has
characters left. -/
theorem Stands.inText_iff (hstands : Stands text p s) (n : Nat) :
    InText text p.line (p.column + n) ↔ n ≤ (lineRest s).length := by
  obtain ⟨hline, hcolumn, l, hl, hlength⟩ := hstands.exists_line
  unfold InText
  rw [hl]
  simp only [Option.some.injEq, exists_eq_left']
  omega

theorem Stands.line_mem (hstands : Stands text p s) :
    1 ≤ p.line ∧ p.line ≤ (text.splitOn '\n').length := by
  obtain ⟨hline, -, l, hl, -⟩ := hstands.exists_line
  have hlt := (List.getElem?_eq_some_iff.mp hl).1
  omega

theorem Stands.one_le_column (hstands : Stands text p s) : 1 ≤ p.column :=
  hstands.exists_line.2.1

end Lines

end Reparse.Toy
