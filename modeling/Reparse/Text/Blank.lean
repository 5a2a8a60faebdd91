/-!
# Blank and control characters

Text is handled as a list of characters.  A character is blank when Unicode
gives it the property `White_Space` (25 code points), and a control character
when its general category is `Cc`.  Trimming removes blanks from the ends of a
text; `lines` cuts a text at its line feeds.
-/

namespace Reparse.Text

/-- The Unicode property `White_Space`. -/
def isBlank (c : Char) : Bool :=
  let n := c.toNat
  (9 ≤ n && n ≤ 13) || n == 0x20 || n == 0x85 || n == 0xA0 || n == 0x1680 ||
    (0x2000 ≤ n && n ≤ 0x200A) || n == 0x2028 || n == 0x2029 || n == 0x202F ||
    n == 0x205F || n == 0x3000

/-- The Unicode general category `Cc`. -/
def isControl (c : Char) : Bool :=
  let n := c.toNat
  n ≤ 0x1F || (0x7F ≤ n && n ≤ 0x9F)

def trimStart (s : List Char) : List Char :=
  s.dropWhile isBlank

def trimEnd (s : List Char) : List Char :=
  (s.reverse.dropWhile isBlank).reverse

def trim (s : List Char) : List Char :=
  trimEnd (trimStart s)

/-- The text after `start`, when it begins with `start`. -/
def dropStart? (start s : List Char) : Option (List Char) :=
  if start.isPrefixOf s then some (s.drop start.length) else none

/-- The pieces between the occurrences of `sep`; one more than there are
occurrences. -/
def splitAt (sep : Char) : List Char → List (List Char)
  | [] => [[]]
  | c :: s =>
    match splitAt sep s with
    | [] => [[c]]
    | piece :: pieces =>
        if c = sep then [] :: piece :: pieces else (c :: piece) :: pieces

/-- A line without the carriage return that may end it. -/
private def dropReturn (line : List Char) : List Char :=
  match line.reverse with
  | '\r' :: r => r.reverse
  | _ => line

/-- The lines of a text.  A line ends with a line feed, which may follow a
carriage return; the last line may have no ending, and then keeps a carriage
return. -/
def lines (s : List Char) : List (List Char) :=
  let pieces := splitAt '\n' s
  let last := pieces.getLast?.getD []
  pieces.dropLast.map dropReturn ++ if last.isEmpty then [] else [last]

/-- Whether `part` occurs in `s` as a run of consecutive characters. -/
def contains (part : List Char) : List Char → Bool
  | [] => part.isEmpty
  | c :: s => part.isPrefixOf (c :: s) || contains part s

/-- `s` with copies of `pad` in front, so that it has at least `width`
characters. -/
def padStart (width : Nat) (pad : Char) (s : List Char) : List Char :=
  List.replicate (width - s.length) pad ++ s

end Reparse.Text
