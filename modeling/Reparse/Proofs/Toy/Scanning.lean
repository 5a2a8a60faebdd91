import Reparse.Proofs.Toy.Characters
import Reparse.Proofs.Toy.Oversteps
import Reparse.Proofs.Toy.Scanner

/-!
# The lexer by offsets is the lexer

A place tells the state of the lexer by offsets, and what is left there is the
rest of the text behind its offset.  A column is not counted from further back
than the beginning of its line, so that the difference of the offsets is always
there.  Where something is left the offset is one of the text, and what has
been gone over since an earlier offset can be cut out of it.

Words, symbols and numbers are read by offsets as they are read by what is
left.
-/

namespace Reparse.Toy

open Text Checked

def Place.scanner (p : Place) : Scanner :=
  ⟨p.offset, p.line, p.offset + 1 - p.column⟩

/-- The place is one of the text or beyond it, and `s` is what is left
there. -/
structure Leaves (text : List Char) (p : Place) (s : List Char) : Prop where
  drop_eq : text.drop p.offset = s
  one_le_column : 1 ≤ p.column
  column_le : p.column ≤ p.offset + 1

section Places

variable {text s : List Char} {c : Char} {p : Place}

theorem Place.scanner_offset : p.scanner.offset = p.offset := rfl

theorem Place.scanner_skip (n : Nat) :
    (p.skip n).scanner = { p.scanner with offset := p.offset + n } := by
  simp only [scanner, skip, Scanner.mk.injEq, true_and]
  omega

theorem Leaves.skip (h : Leaves text p s) (n : Nat) :
    Leaves text (p.skip n) (s.drop n) := by
  obtain ⟨rfl, hone, hle⟩ := h
  refine ⟨?_, Nat.le_add_right_of_le hone, ?_⟩
  · simp [Place.skip]
  · simp only [Place.skip]
    omega

theorem Leaves.newLine (h : Leaves text p (c :: s)) :
    Leaves text p.newLine s := by
  refine ⟨?_, Nat.le_refl 1, Nat.le_add_left 1 _⟩
  have hdrop := (h.skip 1).drop_eq
  exact hdrop

theorem Leaves.length_eq (h : Leaves text p (c :: s)) :
    p.offset + (c :: s).length = text.length := by
  have hlength := congrArg List.length h.drop_eq
  rw [List.length_drop] at hlength
  simp only [List.length_cons] at hlength ⊢
  omega

theorem Leaves.length_skip (h : Leaves text p (c :: s)) :
    (p.skip 1).offset + s.length = text.length := by
  have hlength := h.length_eq
  simp only [Place.skip, List.length_cons] at hlength ⊢
  omega

theorem Leaves.skip_succ (h : Leaves text p (c :: s)) (n : Nat) :
    Leaves text (p.skip (1 + n)) (s.drop n) := by
  have hskip := h.skip (1 + n)
  rwa [Nat.add_comm, List.drop_succ_cons, Nat.add_comm] at hskip

theorem leaves_start : Leaves text .start text :=
  ⟨rfl, Nat.le_refl 1, Nat.le_refl 1⟩

end Places

namespace Scanner

section Steps

variable {text s : List Char} {c : Char} {p : Place} {n : Nat}

@[simp] theorem forward_apply :
    forward n p.scanner = .done () (p.skip n).scanner := by
  rw [Place.scanner_skip]
  rfl

@[simp] theorem beginLine_apply :
    beginLine (p.skip 1).scanner = .done () p.newLine.scanner := by
  simp [beginLine, Place.scanner, Place.skip, Place.newLine]

theorem column_apply (h : Leaves text p s) :
    column p.scanner = .done p.column p.scanner := by
  obtain ⟨-, hone, hle⟩ := h
  have hstart : p.scanner.lineStart ≤ p.scanner.offset := by
    simp only [Place.scanner]
    omega
  have hcolumn : p.scanner.offset - p.scanner.lineStart + 1 = p.column := by
    simp only [Place.scanner]
    omega
  simp only [column, bind_apply, state_apply, difference_apply hstart,
    pure_apply, hcolumn]

theorem reject_apply {α : Type} (h : Leaves text p s) (cause : Cause) :
    (reject cause : Scan α) p.scanner = .fault (p.fault cause) p.scanner := by
  simp only [reject, bind_apply, state_apply, column_apply h, report_apply]
  rfl

theorem here_apply (h : Leaves text p s) :
    here p.scanner = .done p p.scanner := by
  simp only [here, bind_apply, state_apply, column_apply h, pure_apply]
  rfl

theorem peekAt_apply (h : Leaves text p s) (distance : Nat) :
    peekAt text distance p.scanner = .done s[distance]? p.scanner := by
  obtain ⟨rfl, -, -⟩ := h
  simp only [peekAt, bind_apply, state_apply, pure_apply, List.getElem?_drop]
  rfl

theorem peek_apply (h : Leaves text p s) :
    peek text p.scanner = .done s.head? p.scanner := by
  rw [peek, peekAt_apply h, List.head?_eq_getElem?]

theorem passWhile_apply {q : Char → Bool} (h : Leaves text p s)
    (hn : (s.takeWhile q).length < n) :
    passWhile text q n p.scanner =
      .done () (p.skip (s.takeWhile q).length).scanner := by
  induction n generalizing p s with
  | zero => exact absurd hn (Nat.not_lt_zero _)
  | succ n ih =>
      rw [passWhile, bind_of_done (peek_apply h)]
      cases s with
      | nil => rfl
      | cons c s =>
          rw [List.takeWhile_cons] at hn ⊢
          by_cases hc : q c = true
          · rw [if_pos hc, List.length_cons] at hn
            have hnext : Leaves text (p.skip 1) s := h.skip 1
            simp only [List.head?_cons, hc, if_true,
              bind_of_done forward_apply,
              ih hnext (Nat.lt_of_succ_lt_succ hn), Place.skip_skip,
              List.length_cons,
              Nat.add_comm 1]
          · simp only [List.head?_cons, hc]
            rfl

/-- What the lexer has gone over is the beginning of what was left. -/
theorem sliceFrom_apply (h : Leaves text p s)
    (hlength : p.offset + s.length = text.length) (hn : n ≤ s.length) :
    sliceFrom text p.offset (p.skip n).scanner =
      .done (s.take n) (p.skip n).scanner := by
  have hle : p.offset ≤ (p.skip n).scanner.offset := Nat.le_add_right _ _
  have hstop : (p.skip n).scanner.offset ≤ text.length := by
    simp only [Place.scanner, Place.skip]
    omega
  rw [sliceFrom, bind_of_done state_apply, slice_apply hle hstop, ← h.drop_eq,
    List.take_drop]
  rfl

theorem takeWhile_apply {q : Char → Bool} (h : Leaves text p s)
    (hlength : p.offset + s.length = text.length) (hn : s.length < n) :
    takeWhile text q n p.scanner =
      .done (s.takeWhile q) (p.skip (s.takeWhile q).length).scanner := by
  have hle : (s.takeWhile q).length ≤ s.length :=
    (List.takeWhile_prefix q).length_le
  have htake : s.take (s.takeWhile q).length = s.takeWhile q :=
    List.prefix_iff_eq_take.mp (List.takeWhile_prefix q) |>.symm
  rw [takeWhile, bind_of_done state_apply,
    bind_of_done (passWhile_apply h (by omega)),
    Place.scanner_offset, sliceFrom_apply h hlength hle, htake]

/-! ## Parts of numbers -/

/-- The characters of a part in front of its digits, and the digits. -/
def partOf (k : Nat) (s : List Char) : List Char :=
  s.take k ++ (s.drop k).takeWhile isDigit

theorem fractionPart_eq (s : List Char) : fractionPart s =
    if s.head? = some '.' ∧ (s[1]?).any isDigit then partOf 1 s else [] := by
  rcases s with _ | ⟨c, _ | ⟨d, r⟩⟩
  · rfl
  · simp [fractionPart]
  by_cases hc : c = '.'
  · by_cases hd : isDigit d = true <;> simp [fractionPart, partOf, hc, hd]
  · simp [fractionPart, hc]

/-- The length of the sign behind the first character. -/
def signLength (s : List Char) : Nat :=
  if s[1]? = some '+' ∨ s[1]? = some '-' then 1 else 0

theorem exponentPart_eq (s : List Char) : exponentPart s =
    if (s.head? = some 'e' ∨ s.head? = some 'E') ∧
        (s[1 + signLength s]?).any isDigit then
      partOf (1 + signLength s) s
    else [] := by
  rcases s with _ | ⟨e, _ | ⟨c, r⟩⟩
  · rfl
  · simp [exponentPart, signLength]
  by_cases he : e = 'e' ∨ e = 'E'
  · by_cases hsign : c = '+' ∨ c = '-'
    · have hdigit : isDigit c = false := by rcases hsign with rfl | rfl <;> rfl
      cases r with
      | nil => simp [exponentPart, signLength, he, hsign, hdigit]
      | cons d r =>
          by_cases hd : isDigit d = true <;>
            simp [exponentPart, signLength, partOf, he, hsign, hdigit, hd]
    · by_cases hc : isDigit c = true <;>
        simp [exponentPart, signLength, partOf, he, hsign, hc]
  · simp [exponentPart, he]

theorem length_partOf_le (k : Nat) (s : List Char) :
    (partOf k s).length ≤ s.length := by
  have htake :=
    (List.takeWhile_prefix (p := isDigit) (l := s.drop k)).length_le
  rw [List.length_drop] at htake
  rw [partOf, List.length_append, List.length_take]
  omega

theorem passPart_apply {k : Nat} (h : Leaves text p s) (hk : k < s.length)
    (hn : s.length < n) :
    (do forward k; passWhile text isDigit n; pure true : Scan Bool) p.scanner =
      .done true (p.skip (partOf k s).length).scanner := by
  have hpass : ((s.drop k).takeWhile isDigit).length < n := by
    have hle := length_partOf_le k s
    rw [partOf, List.length_append] at hle
    omega
  have htake : (s.take k).length = k := List.length_take_of_le hk.le
  simp only [bind_apply, forward_apply, passWhile_apply (h.skip k) hpass,
    pure_apply, Place.skip_skip, partOf, List.length_append, htake]

theorem lt_length_of_any {s : List Char} {k : Nat}
    (hdigit : (s[k]?).any isDigit = true) :
    k < s.length := by
  by_contra hle
  rw [List.getElem?_eq_none (Nat.le_of_not_lt hle)] at hdigit
  cases hdigit

theorem isEmpty_partOf {k : Nat} (hdigit : (s[k]?).any isDigit = true)
    (hk : 0 < k) :
    (partOf k s).isEmpty = false := by
  have hlt := lt_length_of_any hdigit
  rw [← Bool.not_eq_true, List.isEmpty_iff_length_eq_zero, partOf,
    List.length_append, List.length_take]
  omega

theorem passFraction_apply (h : Leaves text p s) (hn : s.length < n) :
    passFraction text n p.scanner =
      .done (!(fractionPart s).isEmpty)
        (p.skip (fractionPart s).length).scanner := by
  rw [passFraction, bind_of_done (peek_apply h),
    bind_of_done (peekAt_apply h 1), fractionPart_eq]
  by_cases hfraction : s.head? = some '.' ∧ (s[1]?).any isDigit
  · rw [if_pos hfraction, if_pos hfraction,
      passPart_apply h (lt_length_of_any hfraction.2) hn,
      isEmpty_partOf hfraction.2 Nat.one_pos]
    rfl
  · rw [if_neg hfraction, if_neg hfraction]
    rfl

theorem passExponent_apply (h : Leaves text p s) (hn : s.length < n) :
    passExponent text n p.scanner =
      .done (!(exponentPart s).isEmpty)
        (p.skip (exponentPart s).length).scanner := by
  rw [passExponent, bind_of_done (peek_apply h)]
  by_cases he : s.head? = some 'e' ∨ s.head? = some 'E'
  · rw [if_pos he, bind_of_done (peekAt_apply h 1),
      bind_of_done (peekAt_apply h _)]
    by_cases hdigit : (s[1 + signLength s]?).any isDigit
    · have hpart : exponentPart s = partOf (1 + signLength s) s := by
        rw [exponentPart_eq, if_pos ⟨he, hdigit⟩]
      rw [hpart, isEmpty_partOf hdigit (Nat.add_pos_left Nat.one_pos _)]
      exact (congrFun (if_pos hdigit) _).trans
        (passPart_apply h (lt_length_of_any hdigit) hn)
    · have hnone : exponentPart s = [] := by
        rw [exponentPart_eq, if_neg fun hboth => hdigit hboth.2]
      rw [hnone]
      exact congrFun (if_neg hdigit) _
  · have hnone : exponentPart s = [] := by
      rw [exponentPart_eq, if_neg fun hboth => he hboth.1]
    rw [if_neg he, hnone]
    rfl

/-! ## Words, symbols and numbers -/

/-- The run ends as the result says: at its place with its value, or with its
fault. -/
def Agrees {α : Type} (text : List Char) (outcome : Outcome Scanner α)
    (result : Except Fault (α × Place × List Char)) : Prop :=
  outcome.EndsAs (fun _ => True) (fun value st found => value = found.1 ∧
    st = found.2.1.scanner ∧ Leaves text found.2.1 found.2.2) result

/-- What the lexer takes for a token, without the proof that it goes on. -/
def taken (encoding : Encoding) (p : Place) (c : Char) (s : List Char) :
    Except Fault (TokenKind × Place × List Char) :=
  (scanToken encoding p c s).map fun (kind, next, rest) =>
    (kind, next, rest.val)

theorem agrees_done {α : Type} (h : Leaves text p s) (a : α) :
    Agrees text (.done a p.scanner) (.ok (a, p, s)) :=
  ⟨a, _, rfl, rfl, rfl, h⟩

theorem agrees_reject {α : Type} (h : Leaves text p s) (cause : Cause) :
    Agrees text ((reject cause : Scan α) p.scanner) (.error (p.fault cause)) :=
  ⟨_, reject_apply h cause, trivial⟩

theorem agrees_forward {α : Type} (h : Leaves text p s) (k : Nat) (a : α) :
    Agrees text ((do forward k; pure a : Scan α) p.scanner)
      (.ok (a, p.skip k, s.drop k)) := by
  rw [bind_of_done forward_apply]
  exact agrees_done (h.skip k) a

theorem Agrees.bind {α β : Type} {run : Scan α} {next : α → Scan β}
    {st : Scanner} {result : Except Fault (α × Place × List Char)}
    {more : α × Place × List Char → Except Fault (β × Place × List Char)}
    (hrun : Agrees text (run st) result)
    (hmore : ∀ a q t, result = .ok (a, q, t) → Leaves text q t →
      Agrees text (next a q.scanner) (more (a, q, t))) :
    Agrees text ((run >>= next) st) (result >>= more) :=
  endsAs_bind hrun fun _ _ found hfound hgoes => by
    obtain ⟨rfl, rfl, hleaves⟩ := hgoes
    exact hmore _ _ _ hfound hleaves

theorem Agrees.map {α β : Type} {run : Scan α} {f : α → β} {st : Scanner}
    {result : Except Fault (α × Place × List Char)}
    (hrun : Agrees text (run st) result) :
    Agrees text ((do let a ← run; pure (f a) : Scan β) st)
      (result.map fun found => (f found.1, found.2)) :=
  endsAs_map hrun fun _ _ _ hgoes => ⟨congrArg f hgoes.1, hgoes.2⟩

theorem agrees_word (h : Leaves text p (c :: s)) (hc : isWordStart c = true)
    (hn : (c :: s).length < n) :
    Agrees text (word text n p.scanner)
      (.ok (wordToken (c :: s.takeWhile isWordChar),
        p.skip (c :: s.takeWhile isWordChar).length,
        s.dropWhile isWordChar)) := by
  have hword : (c :: s).takeWhile isWordChar = c :: s.takeWhile isWordChar :=
    List.takeWhile_cons_of_pos (isWordChar_of_isWordStart hc)
  have hnext := h.skip_succ (s.takeWhile isWordChar).length
  rw [drop_length_takeWhile, Nat.add_comm] at hnext
  rw [word, bind_of_done (takeWhile_apply h h.length_eq hn), hword]
  exact agrees_done hnext _

/-- What follows the colon of a symbol, as a token. -/
def symbolToken (p : Place) (s : List Char) :
    Except Fault (TokenKind × Place × List Char) :=
  match scanSymbol? s with
  | some (name, rest) =>
      .ok (.sym (String.ofList name), p.skip name.length, rest.val)
  | none => .error (p.fault .malformedSymbol)

theorem symbolToken_operator (hc : isWordStart c = false) :
    symbolToken p (c :: s) =
      if c = '-' ∧ s[0]? = some '@' then .ok (.sym "-@", p.skip 2, s.drop 1)
      else if c = '+' ∨ c = '-' ∨ c = '*' ∨ c = '/'
        then .ok (.sym (String.ofList [c]), p.skip 1, s)
      else .error (p.fault .malformedSymbol) := by
  by_cases hminus : c = '-'
  · subst hminus
    match s with
    | [] => rfl
    | d :: r =>
        by_cases hd : d = '@'
        · subst hd
          rfl
        · simp [symbolToken, scanSymbol?, hc, hd, Rest.weaken, Rest.tail]
  · by_cases hsign : c = '+' ∨ c = '*' ∨ c = '/' <;>
      simp [symbolToken, scanSymbol?, hc, hminus, hsign, Rest.weaken,
        Rest.tail]

theorem agrees_operatorSymbol (h : Leaves text p (c :: s))
    (hc : isWordStart c = false) :
    Agrees text (operatorSymbol text c p.scanner)
      (symbolToken p (c :: s)) := by
  rw [operatorSymbol, bind_of_done (peekAt_apply h 1), List.getElem?_cons_succ,
    symbolToken_operator hc]
  split
  · exact agrees_forward h 2 _
  split
  · exact agrees_forward h 1 _
  · exact agrees_reject h _

theorem agrees_symbol (h : Leaves text p (c :: s)) (hn : s.length < n) :
    Agrees text (symbol text n p.scanner) (symbolToken (p.skip 1) s) := by
  have hnext : Leaves text (p.skip 1) s := h.skip 1
  rw [symbol, bind_of_done forward_apply, bind_of_done (peek_apply hnext)]
  match s with
  | [] => exact agrees_reject hnext _
  | d :: r =>
      by_cases hstart : isWordStart d = true
      · have hname :
            (d :: r).takeWhile isWordChar = d :: r.takeWhile isWordChar :=
          List.takeWhile_cons_of_pos (isWordChar_of_isWordStart hstart)
        have hleft := hnext.skip (d :: r.takeWhile isWordChar).length
        rw [List.length_cons, List.drop_succ_cons,
          drop_length_takeWhile] at hleft
        simp only [List.head?_cons, symbolToken, scanSymbol?, hstart, if_true]
        rw [bind_of_done (takeWhile_apply hnext h.length_skip hn), hname]
        exact agrees_done hleft _
      · simp only [List.head?_cons, hstart]
        exact agrees_operatorSymbol hnext (by simpa using hstart)

/-- What is taken for a number. -/
def numeralToken (p : Place) (s : List Char) :
    Except Fault (TokenKind × Place × List Char) :=
  let length := (numberPart s).1.length
  match numberToken (numberPart s).1 (numberPart s).2 with
  | .ok kind => .ok (kind, p.skip length, s.drop length)
  | .error cause => .error ((p.skip length).fault cause)

/-- The lexer goes over the number in front. -/
theorem passNumber_apply (h : Leaves text p s) (hn : s.length < n) :
    passNumber text n p.scanner =
      .done (numberPart s).2 (p.skip (numberPart s).1.length).scanner := by
  let whole := s.takeWhile isDigit
  let fraction := fractionPart (s.drop whole.length)
  let exponent := exponentPart (s.drop (whole.length + fraction.length))
  have hpart : numberPart s =
      (whole ++ fraction ++ exponent, !fraction.isEmpty ||
        !exponent.isEmpty) := rfl
  have hwhole : whole.length < n :=
    (List.takeWhile_prefix isDigit).length_le.trans_lt hn
  have hafter := h.skip whole.length
  have hend := hafter.skip fraction.length
  rw [List.drop_drop, Place.skip_skip] at hend
  rw [passNumber, bind_of_done (passWhile_apply h hwhole),
    bind_of_done (passFraction_apply hafter (by rw [List.length_drop]; omega)),
    Place.skip_skip,
    bind_of_done (passExponent_apply hend (by rw [List.length_drop]; omega)),
    Place.skip_skip, hpart, List.length_append, List.length_append]
  rfl

theorem agrees_number (h : Leaves text p (c :: s)) (hn : (c :: s).length < n) :
    Agrees text (number text n p.scanner) (numeralToken p (c :: s)) := by
  obtain ⟨⟨rest, hrest⟩, -⟩ := numberPart_leads (c :: s)
  have hle : (numberPart (c :: s)).1.length ≤ (c :: s).length := by
    have hlength := congrArg List.length hrest
    rw [List.length_append] at hlength
    omega
  have htake :
      (c :: s).take (numberPart (c :: s)).1.length = (numberPart (c :: s)).1 :=
    (List.prefix_iff_eq_take.mp ⟨rest, hrest.symm⟩).symm
  have hnext := h.skip (numberPart (c :: s)).1.length
  have hslice := sliceFrom_apply h h.length_eq hle
  rw [htake] at hslice
  rw [number, bind_of_done state_apply, bind_of_done (passNumber_apply h hn),
    Place.scanner_offset, bind_of_done hslice, numeralToken]
  cases numberToken (numberPart (c :: s)).1 (numberPart (c :: s)).2 with
  | ok kind => exact agrees_done hnext kind
  | error cause => exact agrees_reject hnext cause

end Steps

end Scanner

end Reparse.Toy
