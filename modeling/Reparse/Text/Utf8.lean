/-!
# UTF-8

The encoding of a character as one to four bytes, and a decoder that reads one
unit at a time.  A unit is a character, or an ill-formed run: the longest run
of bytes that begins like a character and cannot be completed (one byte at
least).  Strict decoding refuses an ill-formed run; lossy decoding writes
U+FFFD for each.
-/

namespace Reparse.Text.Utf8

def encodeChar (c : Char) : List UInt8 :=
  let n := c.toNat
  if n < 0x80 then [UInt8.ofNat n]
  else if n < 0x800 then
    [UInt8.ofNat (0xC0 + n / 64), UInt8.ofNat (0x80 + n % 64)]
  else if n < 0x10000 then
    [UInt8.ofNat (0xE0 + n / 4096), UInt8.ofNat (0x80 + n / 64 % 64),
      UInt8.ofNat (0x80 + n % 64)]
  else
    [UInt8.ofNat (0xF0 + n / 262144), UInt8.ofNat (0x80 + n / 4096 % 64),
      UInt8.ofNat (0x80 + n / 64 % 64), UInt8.ofNat (0x80 + n % 64)]

def encode (s : List Char) : List UInt8 :=
  s.flatMap encodeChar

/-- A continuation byte lies between `low` and `high`, which the first byte
narrows so that no character has two encodings and no surrogate has one. -/
def isTail (low high b : Nat) : Bool :=
  low ≤ b && b ≤ high

/-- What the first byte of a character announces: how many bytes follow, the
bounds of the first of them, and the bits that the first byte contributes. -/
structure Lead where
  owed : Nat
  low : Nat
  high : Nat
  bits : Nat

def lead? (b : Nat) : Option Lead :=
  if b < 0x80 then some ⟨0, 0x80, 0xBF, b⟩
  else if b < 0xC2 then none
  else if b < 0xE0 then some ⟨1, 0x80, 0xBF, b - 0xC0⟩
  else if b = 0xE0 then some ⟨2, 0xA0, 0xBF, 0⟩
  else if b = 0xED then some ⟨2, 0x80, 0x9F, 0xD⟩
  else if b < 0xF0 then some ⟨2, 0x80, 0xBF, b - 0xE0⟩
  else if b = 0xF0 then some ⟨3, 0x90, 0xBF, 0⟩
  else if b < 0xF4 then some ⟨3, 0x80, 0xBF, b - 0xF0⟩
  else if b = 0xF4 then some ⟨3, 0x80, 0x8F, 4⟩
  else none

/-- One unit of a byte string and what follows it. -/
inductive Unit where
  | char (c : Char) (rest : List UInt8)
  | illFormed (rest : List UInt8)

def Unit.rest : Unit → List UInt8
  | .char _ rest => rest
  | .illFormed rest => rest

/-- Reads the owed continuation bytes.  `value` holds the bits so far. -/
def tails : Nat → Nat → Nat → Nat → List UInt8 → Unit
  | 0, _, _, value, s => .char (Char.ofNat value) s
  | _ + 1, _, _, _, [] => .illFormed []
  | owed + 1, low, high, value, b :: s =>
    if isTail low high b.toNat
      then tails owed 0x80 0xBF (value * 64 + (b.toNat - 0x80)) s
    else .illFormed (b :: s)

/-- The first unit of the byte string `b :: s`. -/
def next (b : UInt8) (s : List UInt8) : Unit :=
  match lead? b.toNat with
  | none => .illFormed s
  | some l => tails l.owed l.low l.high l.bits s

theorem length_rest_tails_le (owed low high value : Nat) (s : List UInt8) :
    (tails owed low high value s).rest.length ≤ s.length := by
  induction owed generalizing low high value s with
  | zero => simp [tails, Unit.rest]
  | succ owed ih =>
    cases s with
    | nil => simp [tails, Unit.rest]
    | cons b s =>
      unfold tails
      split
      · exact Nat.le_succ_of_le (ih _ _ _ s)
      · simp [Unit.rest]

theorem length_rest_next_le (b : UInt8) (s : List UInt8) :
    (next b s).rest.length ≤ s.length := by
  unfold next
  split
  · simp [Unit.rest]
  · exact length_rest_tails_le _ _ _ _ s

/-- The characters of a byte string; U+FFFD stands for each ill-formed run. -/
def decodeLossy : List UInt8 → List Char
  | [] => []
  | b :: s =>
    match _h : next b s with
    | .char c rest => c :: decodeLossy rest
    | .illFormed rest => '\uFFFD' :: decodeLossy rest
termination_by s => s.length
decreasing_by
  all_goals
    have := length_rest_next_le b s
    simp only [_h, Unit.rest] at this
    simp only [List.length_cons]
    omega

/-- The characters of a well-formed byte string. -/
def decode? : List UInt8 → Option (List Char)
  | [] => some []
  | b :: s =>
    match _h : next b s with
    | .char c rest => (decode? rest).map (c :: ·)
    | .illFormed _ => none
termination_by s => s.length
decreasing_by
  have := length_rest_next_le b s
  simp only [_h, Unit.rest] at this
  simp only [List.length_cons]
  omega

/-- What begins at the first ill-formed run; nothing when there is none. -/
def fromIllFormed : List UInt8 → List UInt8
  | [] => []
  | b :: s =>
    match _h : next b s with
    | .char _ rest => fromIllFormed rest
    | .illFormed _ => b :: s
termination_by s => s.length
decreasing_by
  have := length_rest_next_le b s
  simp only [_h, Unit.rest] at this
  simp only [List.length_cons]
  omega

end Reparse.Text.Utf8
