import Reparse.Proofs.Text.Escapes
import Reparse.Proofs.Toy.Lexing
import Reparse.Proofs.Tree.Escapes
import Reparse.Toy.Parser

/-!
# Escapes in string literals

The inside of a string literal is read part by part, and every part that is
read moves the place as its characters do.  So which literals are accepted is
told by which parts there are: characters that stand for themselves and
escapes, some of which hold hexadecimal numerals.
-/

namespace Reparse.Toy

open Text

/-! ## Places -/

namespace Place

def step (p : Place) (c : Char) : Place :=
  if c = '\n' then p.newLine else p.skip 1

def walk (p : Place) (s : List Char) : Place :=
  s.foldl step p

section Walks

variable {p : Place} {s : List Char}

@[simp] theorem walk_nil : p.walk [] = p := rfl

@[simp] theorem walk_cons {c : Char} :
    p.walk (c :: s) = (p.step c).walk s := rfl

theorem walk_append {t : List Char} : p.walk (s ++ t) = (p.walk s).walk t :=
  List.foldl_append

theorem skip_skip (m n : Nat) : (p.skip m).skip n = p.skip (m + n) := by
  simp [skip, Nat.add_assoc]

theorem step_lineFeed : p.step '\n' = p.newLine :=
  if_pos rfl

theorem step_of_ne {c : Char} (hc : c ≠ '\n') : p.step c = p.skip 1 :=
  if_neg hc

/-- On one line every character is one column. -/
theorem walk_of_notMem (hs : '\n' ∉ s) : p.walk s = p.skip s.length := by
  induction s generalizing p with
  | nil => rfl
  | cons c s ih =>
      simp only [List.mem_cons, not_or] at hs
      obtain ⟨hc, hs⟩ := hs
      rw [walk_cons, step_of_ne (Ne.symm hc), ih hs, skip_skip,
        List.length_cons, Nat.add_comm]

end Walks

end Place

/-! ## Scanning without remainders -/

def escaped (encoding : Encoding) (place : Place) (s : List Char) :
    Except Fault (Piece × Place × List Char) :=
  (scanEscape encoding place s).map fun (piece, next, rest) =>
    (piece, next, rest.val)

def scanned (encoding : Encoding) (place : Place) (s : List Char) :
    Except Fault (List Piece × Place × List Char) :=
  (scanString encoding place s).map fun (pieces, next, rest) =>
    (pieces, next, rest.val)

section Scanning

variable {encoding : Encoding} {place : Place} {c : Char} {s : List Char}

theorem scanned_nil :
    scanned encoding place [] = .error (place.fault .unterminatedString) := by
  rw [scanned, scanString]
  rfl

theorem scanned_quote :
    scanned encoding place ('"' :: s) = .ok ([], place.skip 1, s) := by
  rw [scanned, scanString, if_pos rfl]
  rfl

theorem scanned_plain (hquote : c ≠ '"') (hslash : c ≠ '\\') :
    scanned encoding place (c :: s) =
      (scanned encoding (place.step c) s).map fun found =>
        (.char c :: found.1, found.2) := by
  rw [scanned, scanString, if_neg hquote, scanned]
  unfold Place.step
  by_cases hfeed : c = '\n'
  · simp only [hfeed, if_true]
    cases scanString encoding place.newLine s <;> rfl
  · simp only [hfeed, hslash, if_false]
    cases scanString encoding (place.skip 1) s <;> rfl

theorem scanned_escape :
    scanned encoding place ('\\' :: s) =
      match escaped encoding (place.skip 1) s with
      | .error fault => .error fault
      | .ok (piece, next, rest) =>
        (scanned encoding next rest).map fun found =>
          (piece :: found.1, found.2) := by
  rw [scanned, scanString, if_neg (by decide), escaped]
  simp only [if_neg (by decide : '\\' ≠ '\n'), if_true]
  cases hescape : scanEscape encoding (place.skip 1) s with
  | error fault => rfl
  | ok found =>
      simp only [Except.map, scanned]
      cases scanString encoding found.2.1 found.2.2.val <;> rfl

end Scanning

/-! ## Escapes -/

/-- What may follow a backslash, and the piece that it stands for. -/
inductive Escape (encoding : Encoding) : List Char → Piece → Prop where
  | lineFeed : Escape encoding ['n'] (.char '\n')
  | tab : Escape encoding ['t'] (.char '\t')
  | carriageReturn : Escape encoding ['r'] (.char '\r')
  | null : Escape encoding ['0'] (.char '\x00')
  | backslash : Escape encoding ['\\'] (.char '\\')
  | quote : Escape encoding ['"'] (.char '"')
  | byte {a b : Char} {n : Nat} (hbyte : HexNumeral [a, b] n) :
      Escape encoding ['x', a, b] (.ofByte encoding n)
  | codePoint {e : List Char} {c : Char} (he : CodePointEscape e c) :
      Escape encoding e (.char c)

section Escapes

variable {encoding : Encoding} {place next : Place} {e s rest body : List Char}
variable {piece : Piece}
variable {pieces : List Piece}

/-- An escape takes no line of its own. -/
theorem Escape.not_mem (he : Escape encoding e piece) : '\n' ∉ e := by
  cases he with
  | byte hbyte => simpa using hbyte.not_mem.1
  | codePoint he =>
      obtain ⟨hhex⟩ := he
      simpa using hhex.not_mem.1
  | _ => decide

theorem Escape.escaped (he : Escape encoding e piece) :
    escaped encoding place (e ++ rest) = .ok (piece, place.walk e, rest) := by
  rw [Place.walk_of_notMem he.not_mem]
  cases he with
  | byte hbyte =>
      next a b n =>
      have hread : readUnsigned? 16 [a, b] = some n :=
        readUnsigned?_eq_some_iff.mpr hbyte
      simp [Toy.escaped, scanEscape, hread, Except.map, Place.skip_skip]
  | codePoint he =>
      obtain ⟨hhex⟩ := he
      next c hex =>
      obtain ⟨htake, hdrop⟩ := takeWhile_brace hhex.not_mem.2.1 rest
      have hread := readCodePoint?_eq_some_iff.mpr hhex
      have hlength :
          ('u' :: '{' :: (hex ++ ['}'])).length =
            1 + (1 + hex.length) + 1 := by
        simp
        omega
      rw [hlength]
      rw [List.cons_append, List.cons_append, List.append_assoc,
        List.singleton_append]
      simp only [Toy.escaped, scanEscape]
      split
      · next hnone => cases hdrop.symm.trans hnone
      · next after hsome =>
          cases hdrop.symm.trans hsome
          simp only [htake, hread, Except.map, Place.skip_skip]
  | _ => rfl

/-- An escape that is scanned is one of the language, unless the text ends
within its second place. -/
theorem exists_escape_of_escaped
    (hscan : Toy.escaped encoding place s = .ok (piece, next, rest)) :
    (∃ e, s = e ++ rest ∧ Escape encoding e piece ∧ next = place.walk e) ∨
      ∃ d n, s = ['x', d] ∧ HexNumeral [d] n ∧ rest = [] ∧
        next = place.skip 3 := by
  have hone : ∀ {c : Char} {r : List Char} {d : Char}, c ≠ '\n' →
      Escape encoding [c] (.char d) →
      ∃ e, c :: r = e ++ r ∧ Escape encoding e (.char d) ∧
        place.skip 1 = place.walk e :=
    fun hc he => ⟨[_], rfl, he, (Place.step_of_ne hc).symm⟩
  unfold Toy.escaped scanEscape at hscan
  split at hscan
  · cases hscan
  dsimp only at hscan
  split at hscan
  case h_7 r _ =>
      split at hscan
      · next n hread =>
          cases hscan
          have hbyte := readUnsigned?_eq_some_iff.mp hread
          rcases r with _ | ⟨a, _ | ⟨b, r⟩⟩
          · exact absurd rfl hbyte.ne_nil
          · exact .inr ⟨a, n, rfl, hbyte, rfl, rfl⟩
          · have he : Escape encoding ['x', a, b] (.ofByte encoding n) :=
              .byte hbyte
            exact .inl ⟨_, rfl, he, (Place.walk_of_notMem he.not_mem).symm⟩
      · cases hscan
  case h_8 r _ =>
      split at hscan
      · next r =>
          split at hscan
          · cases hscan
          · next hdrop =>
              obtain ⟨rfl, hr⟩ := exists_brace_of_dropWhile hdrop
              split at hscan
              · next hread =>
                  cases hscan
                  have hcode :=
                    CodePointEscape.mk (readCodePoint?_eq_some_iff.mp hread)
                  have he : Escape encoding _ _ := .codePoint hcode
                  refine .inl ⟨_, ?_, he, ?_⟩
                  · simpa using hr
                  · rw [Place.walk_of_notMem he.not_mem]
                    simp only [Place.skip_skip, List.length_cons,
                      List.length_append, List.length_nil]
                    congr 1
                    omega
              · cases hscan
      · cases hscan
  case h_9 => cases hscan
  all_goals
    cases hscan
    exact .inl (hone (by decide) (by constructor))

/-! ## Literals -/

/-- Parts of a literal are scanned whatever follows them. -/
theorem scanned_inside
    (hbody : Inside Piece.char (Escape encoding) body pieces) :
    scanned encoding place (body ++ s) =
      (scanned encoding (place.walk body) s).map fun found =>
        (pieces ++ found.1, found.2) := by
  have hmap : ∀ {before : List Piece} {piece : Piece}
      {found : Except Fault (List Piece × Place × List Char)},
      ((found.map fun found => (before ++ found.1, found.2)).map
          fun found => (piece :: found.1, found.2)) =
        found.map fun found => (piece :: before ++ found.1, found.2) := by
    intro before piece found
    cases found <;> rfl
  induction hbody generalizing place with
  | nil => cases hscan : scanned encoding place s <;> simp [hscan, Except.map]
  | plain hquote hslash hs ih =>
      rw [List.cons_append, scanned_plain hquote hslash, ih, hmap,
        Place.walk_cons]
  | escape he hs ih =>
      have hslash : place.step '\\' = place.skip 1 :=
        Place.step_of_ne (by decide)
      rw [List.cons_append, List.append_assoc, scanned_escape, he.escaped]
      dsimp only
      rw [ih, hmap, Place.walk_cons, Place.walk_append, hslash]

theorem exists_inside_of_scanned {s : List Char} {place : Place}
    {pieces : List Piece}
    (hscan : scanned encoding place s = .ok (pieces, next, rest)) :
    ∃ body, s = body ++ '"' :: rest ∧
      Inside Piece.char (Escape encoding) body pieces ∧
      next = (place.walk body).skip 1 := by
  match s with
  | [] =>
      rw [scanned_nil] at hscan
      cases hscan
  | c :: s =>
      by_cases hquote : c = '"'
      · subst hquote
        rw [scanned_quote] at hscan
        cases hscan
        exact ⟨[], rfl, .nil, rfl⟩
      by_cases hslash : c = '\\'
      · subst hslash
        rw [scanned_escape] at hscan
        split at hscan
        · cases hscan
        next piece middle left hescape =>
        rcases exists_escape_of_escaped hescape with
          ⟨e, rfl, he, rfl⟩ | ⟨d, n, -, -, rfl, -⟩
        · obtain ⟨⟨more, last, after⟩, hmore, hfound⟩ :=
            exists_of_map_eq_ok hscan
          cases hfound
          obtain ⟨body, rfl, hbody, hnext⟩ := exists_inside_of_scanned hmore
          refine ⟨'\\' :: (e ++ body), by simp, .escape he hbody, ?_⟩
          rw [hnext, Place.walk_cons, Place.walk_append,
            Place.step_of_ne (by decide)]
        · rw [scanned_nil] at hscan
          cases hscan
      · rw [scanned_plain hquote hslash] at hscan
        obtain ⟨⟨more, last, after⟩, hmore, hfound⟩ :=
          exists_of_map_eq_ok hscan
        cases hfound
        obtain ⟨body, rfl, hbody, hnext⟩ := exists_inside_of_scanned hmore
        exact ⟨c :: body, rfl, .plain hquote hslash hbody, hnext⟩
termination_by s.length

/-- A string literal is scanned exactly if it is made of plain characters and
escapes. -/
theorem scanned_eq_ok_iff :
    scanned encoding place s = .ok (pieces, next, rest) ↔
      ∃ body, s = body ++ '"' :: rest ∧
        Inside Piece.char (Escape encoding) body pieces ∧
        next = (place.walk body).skip 1 := by
  constructor
  · exact exists_inside_of_scanned
  · rintro ⟨body, rfl, hbody, rfl⟩
    rw [scanned_inside hbody, scanned_quote]
    simp [Except.map]

end Escapes

/-- What is read of hexadecimal numbers.  A string literal of the language and
a quoted string of the notation are read exactly if they are made of characters
and escapes, a byte string exactly if it is made of pairs; the numbers in them
are numerals, which have hexadecimal digits only, but for one plus sign. -/
theorem hexadecimal_exact (s rest : List Char) :
    (∀ (encoding : Encoding) (place next : Place) (pieces : List Piece),
      scanned encoding place s = .ok (pieces, next, rest) ↔
        ∃ body, s = body ++ '"' :: rest ∧
          Inside Piece.char (Escape encoding) body pieces ∧
          next = (place.walk body).skip 1) ∧
    (∀ (total : Nat) (text : List Char),
      Notation.Reads (Notation.readString total s) text rest ↔
        ∃ body, s = body ++ '"' :: rest ∧
          Inside id Notation.Escape body text) ∧
    ∀ atom : Atom, Notation.readAtom ('#' :: 'x' :: s) = .ok atom ↔
      ∃ bytes, HexPairs s bytes ∧ atom = .bytes bytes :=
  ⟨fun _ _ _ _ => scanned_eq_ok_iff, fun _ _ => Notation.reads_readString_iff,
    fun _ => Notation.readAtom_bytes_eq_ok_iff⟩

/-- A plus sign is no digit, and all three readers take one in the place of a
digit. -/
theorem plus_in_numerals :
    ¬ IsHexDigit '+' ∧
      (parse true (.ofText "\"\\x+f\"".toList) "input").toOption.map
        Tree.atoms =
        some [.str "\x0f"] ∧
      (parse true (.ofText "\"\\u\x7b+41\x7d\"".toList) "input").toOption.map
        Tree.atoms =
        some [.str "A"] ∧
      (Node.read "(str \"\\u\x7b+41\x7d\")".toList).toOption.map Node.atoms =
        some [.str "A"] ∧
      (Node.read "(str #x+f)".toList).toOption.map Node.atoms =
        some [.bytes [0x0f]] := by
  refine ⟨not_isHexDigit_plus, ?_, ?_, ?_, ?_⟩ <;> decide +kernel

end Reparse.Toy
