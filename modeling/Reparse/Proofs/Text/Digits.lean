import Reparse.Text.Digits
import Mathlib.Tactic

/-!
# Digits read back

Reading digits continues a value, so it may be cut at any place.  The digits of
a number in base 10 or 16 denote that number, and none of them is a sign or a
brace.
-/

namespace Reparse.Text

section Bases

variable {base : Nat}

theorem hexValue?_hexDigit {d : Nat} (hd : d < 16) :
    hexValue? (hexDigit d) = some d := by
  interval_cases d <;> rfl

theorem digitValue?_hexDigit {d : Nat} (hbase : base ≤ 16) (hd : d < base) :
    digitValue? base (hexDigit d) = some d := by
  unfold digitValue?
  rw [hexValue?_hexDigit (by omega), Option.filter_some,
    if_pos (by simpa using hd)]

theorem foldDigits?_append (value : Nat) (s t : List Char) :
    foldDigits? base value (s ++ t) =
      (foldDigits? base value s).bind fun value =>
        foldDigits? base value t := by
  induction s generalizing value with
  | nil => rfl
  | cons c s ih =>
      simp only [List.cons_append, foldDigits?]
      cases digitValue? base c with
      | none => rfl
      | some d => exact ih _

theorem foldDigits?_digits (hlow : 2 ≤ base) (hhigh : base ≤ 16) (n : Nat) :
    foldDigits? base 0 (digits base n) = some n := by
  rw [digits]
  by_cases hn : n < base ∨ base < 2
  · have hlt : n < base := by omega
    rw [dif_pos hn]
    simp [foldDigits?, digitValue?_hexDigit hhigh hlt]
  · have hlt : n % base < base := Nat.mod_lt _ (by omega)
    have hrec := foldDigits?_digits hlow hhigh (n / base)
    rw [dif_neg hn, foldDigits?_append, hrec]
    simp only [Option.bind_some, foldDigits?, digitValue?_hexDigit hhigh hlt]
    rw [Nat.div_add_mod']
termination_by n
decreasing_by exact Nat.div_lt_self (by omega) (by omega)

theorem digits_ne_nil (base n : Nat) : digits base n ≠ [] := by
  rw [digits]
  split <;> simp

theorem readDigits?_eq {s : List Char} (hs : s ≠ []) :
    readDigits? base s = foldDigits? base 0 s := by
  unfold readDigits?
  rw [if_neg (by simpa using hs)]

theorem readDigits?_digits (hlow : 2 ≤ base) (hhigh : base ≤ 16) (n : Nat) :
    readDigits? base (digits base n) = some n := by
  rw [readDigits?_eq (digits_ne_nil base n), foldDigits?_digits hlow hhigh]

theorem exists_of_mem_digits (hlow : 2 ≤ base) {c : Char} {n : Nat}
    (hc : c ∈ digits base n) :
    ∃ d < base, c = hexDigit d := by
  rw [digits] at hc
  by_cases hn : n < base ∨ base < 2
  · rw [dif_pos hn, List.mem_singleton] at hc
    exact ⟨n, by omega, hc⟩
  · rw [dif_neg hn, List.mem_append, List.mem_singleton] at hc
    rcases hc with hc | hc
    · exact exists_of_mem_digits hlow hc
    · exact ⟨n % base, Nat.mod_lt _ (by omega), hc⟩
termination_by n
decreasing_by exact Nat.div_lt_self (by omega) (by omega)

end Bases

/-! ## Hexadecimal -/

theorem hexDigit_ne {d : Nat} (hd : d < 16) :
    hexDigit d ≠ '+' ∧ hexDigit d ≠ '}' ∧ (hexDigit d).toNat < 0x80 := by
  interval_cases d <;> decide

theorem hex_ne {c : Char} {n : Nat} (hc : c ∈ hex n) :
    c ≠ '+' ∧ c ≠ '}' ∧ c.toNat < 0x80 := by
  obtain ⟨d, hd, rfl⟩ := exists_of_mem_digits (by decide) hc
  exact hexDigit_ne hd

theorem readUnsigned?_of_ne {base : Nat} {s : List Char}
    (hs : ∀ c ∈ s, c ≠ '+') :
    readUnsigned? base s = readDigits? base s := by
  unfold readUnsigned?
  split
  · exact absurd rfl (hs '+' List.mem_cons_self)
  · rfl

theorem readCodePoint?_hex (c : Char) :
    readCodePoint? (hex c.toNat) = some c := by
  have hread : readUnsigned? 16 (hex c.toNat) = some c.toNat := by
    rw [readUnsigned?_of_ne fun d hd => (hex_ne hd).1]
    exact readDigits?_digits (by decide) (by decide) _
  have hvalid : c.toNat.isValidChar := c.valid
  simp [readCodePoint?, hread, hvalid]

/-! ## Decimals -/

theorem isDigit_hexDigit {d : Nat} (hd : d < 10) :
    isDigit (hexDigit d) = true := by
  interval_cases d <;> rfl

theorem isDigit_of_mem_decimal {c : Char} {n : Nat} (hc : c ∈ decimal n) :
    isDigit c = true := by
  obtain ⟨d, hd, rfl⟩ := exists_of_mem_digits (by decide) hc
  exact isDigit_hexDigit hd

theorem decimal_ne_nil (n : Nat) : decimal n ≠ [] :=
  digits_ne_nil 10 n

theorem readDigits?_decimal (n : Nat) : readDigits? 10 (decimal n) = some n :=
  readDigits?_digits (by decide) (by decide) n

theorem readInt?_of_isDigit {s : List Char} (hs : ∀ c ∈ s, isDigit c = true) :
    readInt? s = (readDigits? 10 s).map fun n => (n : Int) := by
  have hplus : ∀ c ∈ s, c ≠ '+' := by
    rintro c hc rfl
    exact absurd (hs _ hc) (by decide)
  unfold readInt?
  split
  · exact absurd (hs '-' List.mem_cons_self) (by decide)
  · rw [readUnsigned?_of_ne hplus]

theorem readInt?_decimal (n : Nat) :
    readInt? (decimal n) = some (n : Int) := by
  rw [readInt?_of_isDigit fun c hc => isDigit_of_mem_decimal hc,
    readDigits?_decimal]
  rfl

theorem readInt?_decimalInt (i : Int) : readInt? (decimalInt i) = some i := by
  unfold decimalInt
  by_cases hi : i < 0
  · have hread :
        readInt? ('-' :: decimal i.natAbs) = some (-(i.natAbs : Int)) := by
      simp only [readInt?, readDigits?_decimal]
      rfl
    rw [if_pos hi, hread, Option.some.injEq]
    omega
  · rw [if_neg hi, readInt?_decimal, Option.some.injEq]
    omega

theorem inInt64_iff {i : Int} :
    inInt64 i = true ↔ -2 ^ 63 ≤ i ∧ i < 2 ^ 63 := by
  unfold inInt64
  rw [Bool.and_eq_true, decide_eq_true_eq, decide_eq_true_eq]
  norm_num

theorem readInt64?_decimal {n : Nat} (hn : n < 2 ^ 63) :
    readInt64? (decimal n) = some (Int64.ofInt n) := by
  have hrange : inInt64 n = true := by
    rw [inInt64_iff]
    omega
  unfold readInt64?
  rw [readInt?_decimal, Option.bind_some, if_pos hrange]

theorem hexDigit_eq_digitChar {d : Nat} (hd : d < 10) :
    hexDigit d = Nat.digitChar d := by
  interval_cases d <;> rfl

/-- The last digit comes off the end on both sides. -/
theorem decimal_eq_toDigits (n : Nat) : decimal n = Nat.toDigits 10 n := by
  unfold decimal
  rw [digits, Nat.toDigits_eq_if (by decide)]
  by_cases hn : n < 10
  · rw [dif_pos (.inl hn), if_pos hn, hexDigit_eq_digitChar hn]
  · have hlast : n % 10 < 10 := Nat.mod_lt _ (by decide)
    have hrest := decimal_eq_toDigits (n / 10)
    unfold decimal at hrest
    rw [dif_neg (by omega), if_neg hn, hrest, hexDigit_eq_digitChar hlast]
termination_by n
decreasing_by exact Nat.div_lt_self (by omega) (by omega)

theorem ofList_decimal (n : Nat) : String.ofList (decimal n) = toString n := by
  rw [decimal_eq_toDigits, Nat.toString_eq_repr, Nat.repr_eq_ofList_toDigits]

/-- A number has one digit more than the power of ten below it. -/
theorem length_decimal (n : Nat) :
    n < 10 ^ (decimal n).length ∧
      (n ≠ 0 → 10 ^ (decimal n).length ≤ 10 * n) := by
  unfold decimal
  rw [digits]
  by_cases hn : n < 10
  · rw [dif_pos (.inl hn)]
    simp only [List.length_singleton, pow_one]
    omega
  · obtain ⟨hlow, hhigh⟩ := length_decimal (n / 10)
    unfold decimal at hlow hhigh
    rw [dif_neg (by omega), List.length_append, List.length_singleton,
      pow_succ]
    have hdiv := Nat.div_add_mod n 10
    have hmod : n % 10 < 10 := Nat.mod_lt _ (by decide)
    have hquotient := hhigh (by omega)
    omega
termination_by n
decreasing_by exact Nat.div_lt_self (by omega) (by omega)

theorem length_decimal_eq (n : Nat) :
    (decimal n).length = (toString n).length := by
  rw [← ofList_decimal, String.length_ofList]

/-- A smaller number has no more digits. -/
theorem length_toString_le {m n : Nat} (hle : m ≤ n) :
    (toString m).length ≤ (toString n).length := by
  rw [← length_decimal_eq, ← length_decimal_eq]
  by_cases hzero : m = 0
  · subst hzero
    have hone : (decimal 0).length = 1 := by simp [decimal, digits]
    rw [hone]
    exact List.length_pos_iff.mpr (decimal_ne_nil n)
  · have hlow := (length_decimal m).2 hzero
    have hhigh := (length_decimal n).1
    have hpow : 10 ^ (decimal m).length < 10 ^ ((decimal n).length + 1) := by
      rw [pow_succ]
      omega
    exact Nat.le_of_lt_succ
      ((Nat.pow_lt_pow_iff_right (by decide)).mp hpow)

/-! ## Parts of a number -/

def IsDigits (s : List Char) : Prop :=
  s ≠ [] ∧ ∀ c ∈ s, isDigit c = true

theorem IsDigits.exists_cons {s : List Char} (hdigits : IsDigits s) :
    ∃ d ds, s = d :: ds ∧ isDigit d = true ∧ ∀ c ∈ ds, isDigit c = true := by
  obtain ⟨hne, hall⟩ := hdigits
  obtain ⟨d, ds, rfl⟩ := List.exists_cons_of_ne_nil hne
  obtain ⟨hd, hds⟩ := List.forall_mem_cons.mp hall
  exact ⟨d, ds, rfl, hd, hds⟩

/-- A point and digits, or nothing. -/
def IsFraction (s : List Char) : Prop :=
  s = [] ∨ ∃ ds, IsDigits ds ∧ s = '.' :: ds

/-- The letter of an exponent and digits after at most a minus, or nothing. -/
def IsExponent (s : List Char) : Prop :=
  s = [] ∨ ∃ ds, IsDigits ds ∧ (s = 'e' :: ds ∨ s = 'e' :: '-' :: ds)

theorem isDigits_decimal (n : Nat) : IsDigits (decimal n) :=
  ⟨decimal_ne_nil n, fun _ hc => isDigit_of_mem_decimal hc⟩

theorem isDigit_toNat {c : Char} (hc : isDigit c = true) :
    48 ≤ c.toNat ∧ c.toNat ≤ 57 := by
  unfold isDigit at hc
  rw [Bool.and_eq_true, decide_eq_true_eq, decide_eq_true_eq] at hc
  exact ⟨hc.1, hc.2⟩

/-! ## Runs of characters -/

section Runs

variable {p : Char → Bool} {s rest : List Char}

theorem takeWhile_run (hs : ∀ c ∈ s, p c = true)
    (hrest : ∀ c ∈ rest.head?, p c = false) :
    (s ++ rest).takeWhile p = s := by
  rw [List.takeWhile_append_of_pos hs]
  cases rest with
  | nil => simp
  | cons c rest => simp [hrest c rfl]

theorem dropWhile_run (hs : ∀ c ∈ s, p c = true)
    (hrest : ∀ c ∈ rest.head?, p c = false) :
    (s ++ rest).dropWhile p = rest := by
  rw [List.dropWhile_append_of_pos hs]
  cases rest with
  | nil => rfl
  | cons c rest => simp [hrest c rfl]

end Runs

end Reparse.Text
