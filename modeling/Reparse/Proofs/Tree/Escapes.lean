import Reparse.Proofs.Text.Escapes
import Reparse.Proofs.Tree.Spelling

/-!
# Escapes and byte strings in the notation of trees

Which texts the reader accepts as a quoted string, and which words as a byte
string, with what they stand for.
-/

namespace Reparse.Notation

open Text

/-- What may follow a backslash. -/
inductive Escape : List Char → Char → Prop where
  | lineFeed : Escape ['n'] '\n'
  | tab : Escape ['t'] '\t'
  | carriageReturn : Escape ['r'] '\r'
  | quote : Escape ['"'] '"'
  | backslash : Escape ['\\'] '\\'
  | codePoint {e : List Char} {c : Char} (he : CodePointEscape e c) :
      Escape e c

section Strings

variable {total : Nat} {c : Char} {e s rest text : List Char}

theorem reads_readUnicodeEscape_iff :
    Reads (readUnicodeEscape total s) c rest ↔
      ∃ hex, s = '{' :: (hex ++ '}' :: rest) ∧ HexNumeral hex c.toNat := by
  constructor
  · rintro ⟨left, rfl, hread⟩
    unfold readUnicodeEscape at hread
    split at hread
    · dsimp only at hread
      split at hread
      · next hdrop =>
          obtain ⟨rfl, hs⟩ := exists_brace_of_dropWhile hdrop
          split at hread
          · next hcode =>
              cases hread
              exact ⟨_, congrArg ('{' :: ·) hs,
                readCodePoint?_eq_some_iff.mp hcode⟩
          · cases hread
      · cases hread
    · cases hread
  · rintro ⟨hex, rfl, hhex⟩
    obtain ⟨htake, hdrop⟩ := takeWhile_brace hhex.not_mem.2.1 rest
    simp only [readUnicodeEscape]
    split
    · next after left hsome =>
        cases hdrop.symm.trans hsome
        simp only [htake, readCodePoint?_eq_some_iff.mpr hhex]
        exact ⟨_, rfl, rfl⟩
    · next hnone => cases hdrop.symm.trans hnone

theorem Escape.reads (he : Escape e c) :
    Reads (readEscape total (e ++ rest)) c rest := by
  cases he with
  | codePoint he =>
      obtain ⟨hhex⟩ := he
      next hex =>
      have hread :
          Reads (readUnicodeEscape total ('{' :: (hex ++ '}' :: rest)))
            c rest :=
        reads_readUnicodeEscape_iff.mpr ⟨hex, rfl, hhex⟩
      obtain ⟨left, hleft, hread⟩ := hread
      rw [List.cons_append, List.cons_append, List.append_assoc]
      refine ⟨left.after 'u', hleft, ?_⟩
      simp only [readEscape, List.singleton_append, hread]
      rfl
  | _ => exact ⟨_, rfl, rfl⟩

theorem exists_escape_of_reads (hread : Reads (readEscape total s) c rest) :
    ∃ e, s = e ++ rest ∧ Escape e c := by
  obtain ⟨left, rfl, hread⟩ := hread
  unfold readEscape at hread
  split at hread
  case h_1 => cases hread
  case h_7 r =>
      cases hcode : readUnicodeEscape total r with
      | error error =>
          rw [hcode] at hread
          cases hread
      | ok found =>
          rw [hcode] at hread
          cases hread
          obtain ⟨hex, hr, hhex⟩ :=
            reads_readUnicodeEscape_iff.mp ⟨found.2, rfl, hcode⟩
          have hs : r = ('{' :: (hex ++ ['}'])) ++ found.2.val := by
            simpa using hr
          exact ⟨_, congrArg ('u' :: ·) hs, .codePoint ⟨hhex⟩⟩
  case h_8 => cases hread
  all_goals
    cases hread
    exact ⟨[_], rfl, by constructor⟩

/-- A quoted string is read exactly if it is made of plain characters and
escapes. -/
theorem reads_readString_iff :
    Reads (readString total s) text rest ↔
      ∃ body, s = body ++ '"' :: rest ∧ Inside id Escape body text := by
  constructor
  · rintro ⟨left, rfl, hread⟩
    fun_induction readString total s generalizing text with
    | case1 => cases hread
    | case2 r =>
        cases hread
        exact ⟨[], rfl, .nil⟩
    | case3 => cases hread
    | case4 r c after hescape ih =>
        cases hmore : readString total after.val with
        | error error =>
            rw [hmore] at hread
            cases hread
        | ok found =>
            rw [hmore] at hread
            cases hread
            obtain ⟨e, hr, he⟩ := exists_escape_of_reads ⟨after, rfl, hescape⟩
            obtain ⟨body, hafter, hbody⟩ := ih found.2 hmore
            refine ⟨'\\' :: (e ++ body), ?_, .escape he hbody⟩
            rw [List.cons_append, List.append_assoc]
            exact congrArg ('\\' :: ·) (hr.trans (congrArg (e ++ ·) hafter))
    | case5 c r hquote hslash ih =>
        cases hmore : readString total r with
        | error error =>
            rw [hmore] at hread
            cases hread
        | ok found =>
            rw [hmore] at hread
            cases hread
            obtain ⟨body, hr, hbody⟩ := ih found.2 hmore
            exact ⟨c :: body, congrArg (c :: ·) hr, .plain hquote hslash hbody⟩
  · rintro ⟨body, rfl, hbody⟩
    induction hbody with
    | nil => exact .close
    | plain hquote hslash hs ih => exact .plain hquote hslash ih
    | escape he hs ih =>
        rw [List.cons_append, List.append_assoc]
        exact .escape he.reads ih

end Strings

/-- A word with the mark of a byte string is read exactly if it goes on in
pairs that are numerals. -/
theorem readAtom_bytes_eq_ok_iff {digits : List Char} {atom : Atom} :
    readAtom ('#' :: 'x' :: digits) = .ok atom ↔
      ∃ bytes, HexPairs digits bytes ∧ atom = .bytes bytes := by
  simp only [readAtom, ← readHexBytes?_eq_some_iff]
  cases readHexBytes? digits with
  | none => simp
  | some bytes => simp [eq_comm]

end Reparse.Notation
