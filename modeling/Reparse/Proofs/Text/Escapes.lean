import Reparse.Proofs.Text.Digits

/-!
# Numerals in escapes

Escapes and byte strings hold hexadecimal numbers.  The reader of these numbers
lets one plus sign stand before the digits, and so do all readers that are made
of it: of a byte, which has two places, of a code point and of a row of bytes.
Quoted texts are made of plain characters and escapes; which escapes there are
is left open here.
-/

namespace Reparse.Text

def IsHexDigit (c : Char) : Prop :=
  ('0' ≤ c ∧ c ≤ '9') ∨ ('a' ≤ c ∧ c ≤ 'f') ∨ ('A' ≤ c ∧ c ≤ 'F')

/-- The number that digits denote, continued from `value`. -/
def hexNumberFrom (value : Nat) (s : List Char) : Nat :=
  s.foldl (fun value c => value * 16 + (hexValue? c).getD 0) value

/-- A hexadecimal number with at least one digit; one plus sign may stand
before it. -/
inductive HexNumeral : List Char → Nat → Prop where
  | unsigned {s : List Char} (hne : s ≠ []) (hs : ∀ c ∈ s, IsHexDigit c) :
      HexNumeral s (hexNumberFrom 0 s)
  | signed {s : List Char} (hne : s ≠ []) (hs : ∀ c ∈ s, IsHexDigit c) :
      HexNumeral ('+' :: s) (hexNumberFrom 0 s)

/-- A row of bytes, each as a number of two places. -/
inductive HexPairs : List Char → List UInt8 → Prop where
  | nil : HexPairs [] []
  | cons {a b : Char} {n : Nat} {s : List Char} {bytes : List UInt8}
      (hbyte : HexNumeral [a, b] n) (hs : HexPairs s bytes) :
      HexPairs (a :: b :: s) (UInt8.ofNat n :: bytes)

section Numerals

variable {c : Char} {s : List Char} {n : Nat}

theorem hexValue?_isSome_iff : (hexValue? c).isSome ↔ IsHexDigit c := by
  unfold hexValue? IsHexDigit
  simp only [Bool.and_eq_true, decide_eq_true_eq]
  split
  · simp_all
  split
  · simp_all
  split <;> simp_all

theorem hexValue?_lt (hvalue : hexValue? c = some n) : n < 16 := by
  have hle : ∀ c d : Char, c ≤ d ↔ c.toNat ≤ d.toNat := fun _ _ => Iff.rfl
  unfold hexValue? at hvalue
  simp only [Bool.and_eq_true, decide_eq_true_eq, hle] at hvalue
  have h9 : '9'.toNat = 57 := rfl
  have hf : 'f'.toNat = 102 := rfl
  have hF : 'F'.toNat = 70 := rfl
  split at hvalue
  · cases hvalue
    omega
  split at hvalue
  · cases hvalue
    omega
  split at hvalue
  · cases hvalue
    omega
  · cases hvalue

theorem digitValue?_sixteen (c : Char) : digitValue? 16 c = hexValue? c := by
  unfold digitValue?
  cases hvalue : hexValue? c with
  | none => rfl
  | some n => simp [hexValue?_lt hvalue]

theorem foldDigits?_eq_some_iff (value : Nat) :
    foldDigits? 16 value s = some n ↔
      (∀ c ∈ s, IsHexDigit c) ∧ n = hexNumberFrom value s := by
  induction s generalizing value with
  | nil => simp [foldDigits?, hexNumberFrom, eq_comm]
  | cons c s ih =>
      simp only [foldDigits?, digitValue?_sixteen, List.forall_mem_cons,
        ← hexValue?_isSome_iff]
      cases hvalue : hexValue? c with
      | none => simp
      | some d =>
          rw [ih]
          simp [hexNumberFrom, hvalue, hexValue?_isSome_iff]

theorem readDigits?_eq_some_iff :
    readDigits? 16 s = some n ↔
      s ≠ [] ∧ (∀ c ∈ s, IsHexDigit c) ∧ n = hexNumberFrom 0 s := by
  cases s with
  | nil => simp [readDigits?]
  | cons c s =>
      rw [readDigits?_eq (List.cons_ne_nil c s), foldDigits?_eq_some_iff]
      simp

theorem not_isHexDigit_plus : ¬ IsHexDigit '+' := by
  unfold IsHexDigit
  decide

/-- What the reader takes for a number is a numeral, with or without a plus
sign. -/
theorem readUnsigned?_eq_some_iff :
    readUnsigned? 16 s = some n ↔ HexNumeral s n := by
  constructor
  · intro hread
    unfold readUnsigned? at hread
    split at hread
    · obtain ⟨hne, hs, rfl⟩ := readDigits?_eq_some_iff.mp hread
      exact .signed hne hs
    · obtain ⟨hne, hs, rfl⟩ := readDigits?_eq_some_iff.mp hread
      exact .unsigned hne hs
  · intro hnumeral
    cases hnumeral with
    | unsigned hne hs =>
        have hsign : ∀ c ∈ s, c ≠ '+' := by
          rintro c hc rfl
          exact not_isHexDigit_plus (hs _ hc)
        rw [readUnsigned?_of_ne hsign]
        exact readDigits?_eq_some_iff.mpr ⟨hne, hs, rfl⟩
    | signed hne hs => exact readDigits?_eq_some_iff.mpr ⟨hne, hs, rfl⟩

theorem HexNumeral.ne_nil (hnumeral : HexNumeral s n) : s ≠ [] := by
  cases hnumeral with
  | unsigned hne hs => exact hne
  | signed hne hs => exact List.cons_ne_nil _ _

theorem HexNumeral.mem_cases (hnumeral : HexNumeral s n) :
    ∀ c ∈ s, c = '+' ∨ IsHexDigit c := by
  cases hnumeral with
  | unsigned hne hs => exact fun c hc => .inr (hs c hc)
  | signed hne hs =>
      intro c hc
      rcases List.mem_cons.mp hc with rfl | hc
      · exact .inl rfl
      · exact .inr (hs c hc)

/-- A numeral holds no line feed and no brace. -/
theorem HexNumeral.not_mem (hnumeral : HexNumeral s n) :
    '\n' ∉ s ∧ '}' ∉ s ∧ '"' ∉ s := by
  have hcases := hnumeral.mem_cases
  refine ⟨fun hc => ?_, fun hc => ?_, fun hc => ?_⟩ <;>
    · rcases hcases _ hc with heq | hdigit
      · exact absurd heq (by decide)
      · revert hdigit
        unfold IsHexDigit
        decide

theorem toNat_ofNat (hvalid : n.isValidChar) : (Char.ofNat n).toNat = n := by
  unfold Char.ofNat
  rw [dif_pos hvalid]
  rfl

/-- A code point is read from the numeral of a Unicode scalar value. -/
theorem readCodePoint?_eq_some_iff :
    readCodePoint? s = some c ↔ HexNumeral s c.toNat := by
  unfold readCodePoint?
  rw [← readUnsigned?_eq_some_iff]
  cases hread : readUnsigned? 16 s with
  | none => simp
  | some n =>
      simp only [Option.bind_some, Option.some.injEq]
      constructor
      · intro hchar
        split at hchar
        · next hvalid =>
            cases hchar
            rw [toNat_ofNat hvalid]
        · cases hchar
      · rintro rfl
        have hvalid : c.toNat.isValidChar := c.valid
        rw [if_pos hvalid, Char.ofNat_toNat]

theorem readHexBytes?_eq_some_iff {bytes : List UInt8} :
    readHexBytes? s = some bytes ↔ HexPairs s bytes := by
  fun_induction readHexBytes? s generalizing bytes with
  | case1 =>
      constructor
      · intro hread
        cases hread
        exact .nil
      · intro hpairs
        cases hpairs
        rfl
  | case2 => exact iff_of_false (by simp) (by rintro ⟨⟩)
  | case3 a b s n found hfound hn ih =>
      constructor
      · intro hread
        cases hread
        exact .cons (readUnsigned?_eq_some_iff.mp hn) (ih.mp hfound)
      · intro hpairs
        cases hpairs with
        | cons hbyte hs =>
            cases hn.symm.trans (readUnsigned?_eq_some_iff.mpr hbyte)
            cases hfound.symm.trans (ih.mpr hs)
            rfl
  | case4 a b s hnone ih =>
      refine iff_of_false (by simp) ?_
      intro hpairs
      cases hpairs with
      | cons hbyte hs =>
          exact hnone _ _ (readUnsigned?_eq_some_iff.mpr hbyte) (ih.mpr hs)

end Numerals

/-! ## Quoted texts -/

/-- The inside of a quoted text, of characters that stand for themselves and of
escapes after a backslash, with what its parts stand for. -/
inductive Inside {α : Type} (plain : Char → α)
    (escape : List Char → α → Prop) : List Char → List α → Prop where
  | nil : Inside plain escape [] []
  | plain {c : Char} {s : List Char} {parts : List α} (hquote : c ≠ '"')
      (hslash : c ≠ '\\') (hs : Inside plain escape s parts) :
      Inside plain escape (c :: s) (plain c :: parts)
  | escape {e s : List Char} {part : α} {parts : List α} (he : escape e part)
      (hs : Inside plain escape s parts) :
      Inside plain escape ('\\' :: (e ++ s)) (part :: parts)

/-- The escape of a code point: the letter `u` and a numeral between braces. -/
inductive CodePointEscape : List Char → Char → Prop where
  | mk {hex : List Char} {c : Char} (hhex : HexNumeral hex c.toNat) :
      CodePointEscape ('u' :: '{' :: (hex ++ ['}'])) c

theorem bne_of_notMem {d : Char} {s : List Char} (hd : d ∉ s) :
    ∀ c ∈ s, (c != d) = true := by
  intro c hc
  simpa using fun heq : c = d => hd (heq ▸ hc)

/-- A text that begins with an escape of a code point is cut at its closing
brace. -/
theorem takeWhile_brace {hex : List Char} (hhex : '}' ∉ hex)
    (rest : List Char) :
    (hex ++ '}' :: rest).takeWhile (· != '}') = hex ∧
      (hex ++ '}' :: rest).dropWhile (· != '}') = '}' :: rest := by
  have hrun := bne_of_notMem hhex
  exact ⟨takeWhile_run hrun (by simp), dropWhile_run hrun (by simp)⟩

theorem exists_brace_of_dropWhile {s rest : List Char} {c : Char}
    (hdrop : s.dropWhile (· != '}') = c :: rest) :
    c = '}' ∧ s = s.takeWhile (· != '}') ++ '}' :: rest := by
  have hc := List.head?_dropWhile_not (· != '}') s
  rw [hdrop] at hc
  have heq : c = '}' := by simpa using hc
  subst heq
  refine ⟨rfl, ?_⟩
  rw [← hdrop, List.takeWhile_append_dropWhile]

end Reparse.Text
