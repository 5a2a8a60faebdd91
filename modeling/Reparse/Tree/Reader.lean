import Reparse.Text.Rest
import Reparse.Tree.Notation

/-!
# Reading trees in parentheses

The reader of the notation that `Node.write` and `Node.lines` produce.  Between
the parts of a node any blanks may stand.  A word that is no constant, symbol
or byte string is an integer of 64 bits if it can be, and otherwise a number
with a fraction.  Nodes may lie `maxNotationDepth` deep.

Each reader returns what is left of the text together with the fact that it is
shorter, on which the mutual recursion of nodes and lists of children ends.
-/

namespace Reparse

open Text

/-- Why a text is not the notation of a node.  Offsets count characters from
the start. -/
inductive NotationError where
  | expected (c : Char) (offset : Nat)
  | missingKind (offset : Nat)
  | tooDeep (offset : Nat)
  | trailing (offset : Nat)
  | unterminatedNode (kind : String)
  | unterminatedString
  | unterminatedEscape
  | unknownEscape (c : Char)
  | invalidUnicodeEscape (hex : String)
  | invalidBytes (word : String)
  | unrecognizedAtom (word : String)
  deriving DecidableEq

/-- The deepest nesting of nodes that the reader accepts. -/
def maxNotationDepth : Nat := 512

def NotationError.message : NotationError → String
  | .expected c offset => s!"expected `{c}` at offset {offset}"
  | .missingKind offset => s!"missing node kind at offset {offset}"
  | .tooDeep offset =>
      s!"nesting deeper than {maxNotationDepth} at offset {offset}"
  | .trailing offset => s!"trailing input at offset {offset}"
  | .unterminatedNode kind => s!"unterminated node `{kind}`"
  | .unterminatedString => "unterminated string"
  | .unterminatedEscape => "unterminated escape"
  | .unknownEscape c => s!"unknown escape `\\{c}`"
  | .invalidUnicodeEscape hex => s!"invalid unicode escape `{hex}`"
  | .invalidBytes word => s!"invalid byte string `{word}`"
  | .unrecognizedAtom word => s!"unrecognized atom `{word}`"

namespace Notation

/-- A character that can stand in a kind, a symbol or another word. -/
def isWordChar (c : Char) : Bool :=
  !isBlank c && c != '(' && c != ')' && c != '"'

/-- The value of a word that is no quoted string. -/
def readAtom (word : List Char) : Except NotationError Atom :=
  match word with
  | ['n', 'i', 'l'] => .ok .nil
  | ['t', 'r', 'u', 'e'] => .ok (.bool true)
  | ['f', 'a', 'l', 's', 'e'] => .ok (.bool false)
  | ':' :: name => .ok (.sym (String.ofList name))
  | '#' :: 'x' :: digits =>
    match readHexBytes? digits with
    | some bytes => .ok (.bytes bytes)
    | none => .error (.invalidBytes (String.ofList word))
  | _ =>
    match readInt64? word, Binary64.read? word with
    | some i, _ => .ok (.int i)
    | none, some x => .ok (.float x)
    | none, none => .error (.unrecognizedAtom (String.ofList word))

theorem length_trimStart_le (s : List Char) :
    (trimStart s).length ≤ s.length :=
  length_dropWhile_le isBlank s

/-- The code point between braces that a unicode escape names; `s` follows the
letter `u`. -/
def readUnicodeEscape (total : Nat) (s : List Char) :
    Except NotationError (Char × Rest s) :=
  match s with
  | '{' :: r =>
    let hex := r.takeWhile (· != '}')
    match h : r.dropWhile (· != '}') with
    | _ :: rest =>
      match readCodePoint? hex with
      | some c => .ok (c, ⟨rest, by
          have := length_dropWhile_le (· != '}') r
          simp only [h, List.length_cons] at this ⊢
          omega⟩)
      | none => .error (.invalidUnicodeEscape (String.ofList hex))
    | [] => .error (.expected '}' total)
  | _ => .error (.expected '{' (total - s.length))

/-- The character that an escape stands for; `s` follows the backslash. -/
def readEscape (total : Nat) (s : List Char) :
    Except NotationError (Char × Rest s) :=
  match s with
  | [] => .error .unterminatedEscape
  | 'n' :: r => .ok ('\n', Rest.tail _ r)
  | 't' :: r => .ok ('\t', Rest.tail _ r)
  | 'r' :: r => .ok ('\r', Rest.tail _ r)
  | '"' :: r => .ok ('"', Rest.tail _ r)
  | '\\' :: r => .ok ('\\', Rest.tail _ r)
  | 'u' :: r =>
      (readUnicodeEscape total r).map fun (c, rest) => (c, rest.after _)
  | c :: _ => .error (.unknownEscape c)

/-- The string whose opening quote stands before `s`. -/
def readString (total : Nat) (s : List Char) :
    Except NotationError (List Char × Rest s) :=
  match s with
  | [] => .error .unterminatedString
  | '"' :: r => .ok ([], Rest.tail _ r)
  | '\\' :: r =>
    match readEscape total r with
    | .error e => .error e
    | .ok (c, rest) =>
      (readString total rest.1).map fun (text, rest') =>
        (c :: text, (rest.trans rest'.weaken).after _)
  | c :: r =>
      (readString total r).map fun (text, rest) => (c :: text, rest.after _)
termination_by s.length
decreasing_by
  · exact Nat.lt_succ_of_lt rest.2
  · exact Nat.lt_succ_self _

mutual

/-- The node that `s` begins with; at most `budget` nodes may lie in each
other. -/
def readNode (total budget : Nat) (s : List Char) :
    Except NotationError (Node × Rest s) :=
  match budget, s with
  | 0, s => .error (.tooDeep (total - s.length))
  | budget + 1, '(' :: r =>
    let kind := String.ofList (r.takeWhile isWordChar)
    if kind.isEmpty then .error (.missingKind (total - r.length))
    else
      match readChildren total budget kind (r.dropWhile isWordChar) with
      | .error e => .error e
      | .ok (children, ⟨rest, h⟩) =>
        .ok (.bare kind children, ⟨rest, by
          have := length_dropWhile_le isWordChar r
          simp only [List.length_cons]
          omega⟩)
  | _ + 1, s => .error (.expected '(' (total - s.length))
termination_by 2 * s.length
decreasing_by
  have := length_dropWhile_le isWordChar r
  simp only [List.length_cons]
  omega

/-- The children up to the parenthesis that closes the node of this `kind`. -/
def readChildren (total budget : Nat) (kind : String) (s : List Char) :
    Except NotationError (List Child × Rest s) :=
  match h : trimStart s with
  | [] => .error (.unterminatedNode kind)
  | c :: r =>
    have hs : r.length < s.length := by
      have := length_trimStart_le s
      simp only [h, List.length_cons] at this
      omega
    let first : Except NotationError (Option Child × Rest s) :=
      if c = ')' then .ok (none, ⟨r, hs⟩)
      else if c = '(' then
        match readNode total budget (trimStart s) with
        | .ok (node, ⟨rest, h'⟩) => .ok (some (.node node), ⟨rest, by
            have := length_trimStart_le s
            omega⟩)
        | .error e => .error e
      else if c = '"' then
        match readString total r with
        | .ok (text, ⟨rest, h'⟩) =>
            .ok (some (.atom (.str (String.ofList text))), ⟨rest, by omega⟩)
        | .error e => .error e
      else
        match readAtom (c :: r.takeWhile isWordChar) with
        | .ok atom => .ok (some (.atom atom), ⟨r.dropWhile isWordChar, by
            have := length_dropWhile_le isWordChar r
            omega⟩)
        | .error e => .error e
    match first with
    | .error e => .error e
    | .ok (none, rest) => .ok ([], rest)
    | .ok (some child, ⟨rest, h'⟩) =>
      match readChildren total budget kind rest with
      | .ok (children, ⟨rest', h''⟩) =>
          .ok (child :: children, ⟨rest', by omega⟩)
      | .error e => .error e
termination_by 2 * s.length + 1
decreasing_by
  · have := length_trimStart_le s
    omega
  · omega

end

end Notation

/-- The node that a text denotes, with blanks around it allowed. -/
def Node.read (text : List Char) : Except NotationError Node :=
  let total := text.length
  match Notation.readNode total maxNotationDepth (trimStart text) with
  | .error e => .error e
  | .ok (node, ⟨rest, _⟩) =>
    let rest := trimStart rest
    if rest.isEmpty then .ok node else .error (.trailing (total - rest.length))

end Reparse
