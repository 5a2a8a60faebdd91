import Reparse.Text.Rest

/-!
# Globs

A glob describes texts, here paths.  A question mark stands for one character
and a star for any number of them, slashes included; two stars, which must be a
whole name of the path, stand for any number of names.  Between brackets stand
the characters that are meant, or after an exclamation mark those that are not;
a bracket that closes may be the first of them.
-/

namespace Reparse.Corpus

open Text

inductive GlobError where
  | manyStars
  | partialName
  | openClass
  deriving DecidableEq

def GlobError.message : GlobError → String
  | manyStars => "wildcards are either regular `*` or recursive `**`"
  | partialName => "recursive wildcards must form a single path component"
  | openClass => "invalid range pattern"

/-- The characters between two, both included. -/
structure CharRange where
  low : Char
  high : Char
  deriving DecidableEq

namespace Glob

inductive Token where
  | char (c : Char)
  | anyChar
  | within (ranges : List CharRange)
  | except (ranges : List CharRange)
  /-- Any number of characters. -/
  | sequence
  /-- Any number of names with their slashes, or all that is left. -/
  | names
  deriving DecidableEq

/-- The ranges between brackets: `a-c`, or a character by itself. -/
def ranges : List Char → List CharRange
  | a :: '-' :: b :: s => ⟨a, b⟩ :: ranges s
  | c :: s => ⟨c, c⟩ :: ranges s
  | [] => []

/-- What stands up to the bracket that closes a class, and what follows it.
The first character does not close it. -/
def classBody? (s : List Char) : Option (List Char × Rest s) :=
  match s with
  | [] => none
  | first :: r =>
    match h : r.dropWhile (· != ']') with
    | [] => none
    | _ :: rest =>
      some (first :: r.takeWhile (· != ']'), ⟨rest, by
        have := length_dropWhile_le (· != ']') r
        rw [h] at this
        simp only [List.length_cons] at *
        omega⟩)

/-- The class whose opening bracket stands before `s`, and what follows it. -/
def readClass? (s : List Char) : Option (Token × Rest s) :=
  match s with
  | '!' :: r =>
    (classBody? r).map fun (body, ⟨rest, _⟩) =>
      (.except (ranges body), ⟨rest, by simp only [List.length_cons]; omega⟩)
  | s => (classBody? s).map fun (body, rest) => (.within (ranges body), rest)

/-- The tokens of a text; `fresh` tells whether a name begins here. -/
def compileFrom (fresh : Bool) (s : List Char) :
    Except GlobError (List Token) :=
  match s with
  | [] => .ok []
  | '*' :: '*' :: '*' :: _ => .error .manyStars
  | ['*', '*'] => if fresh then .ok [.names] else .error .partialName
  | '*' :: '*' :: c :: s =>
    if fresh && c == '/' then (compileFrom true s).map (.names :: ·)
    else .error .partialName
  | '*' :: s => (compileFrom false s).map (.sequence :: ·)
  | '?' :: s => (compileFrom false s).map (.anyChar :: ·)
  | '[' :: s =>
    match readClass? s with
    | none => .error .openClass
    | some (token, ⟨rest, _⟩) => (compileFrom false rest).map (token :: ·)
  | c :: s => (compileFrom (c == '/') s).map (.char c :: ·)
termination_by s.length
decreasing_by
  all_goals simp only [List.length_cons]
  all_goals omega

end Glob

/-- A text that describes paths, and what it says. -/
structure Glob where
  text : String
  tokens : List Glob.Token
  deriving DecidableEq

namespace Glob

def compile (text : String) : Except GlobError Glob :=
  (compileFrom true text.toList).map fun tokens => ⟨text, tokens⟩

/-! ## Matching

What a list of tokens matches is told for all ends of a text at once, longest
first.
-/

def isWithin (ranges : List CharRange) (c : Char) : Bool :=
  ranges.any fun r => r.low ≤ c && c ≤ r.high

def Token.takes (token : Token) (c : Char) : Bool :=
  match token with
  | char d => c == d
  | anyChar => true
  | within ranges => isWithin ranges c
  | except ranges => !isWithin ranges c
  | sequence => false
  | names => false

/-- The ends that one character and then an end of `row` make up. -/
def oneRow (token : Token) : List Char → List Bool → List Bool
  | c :: s, _ :: row =>
      (token.takes c && row.headD false) :: oneRow token s row
  | _, _ => [false]

/-- The ends of which an end in `row` is left when characters are dropped. -/
def sequenceRow : List Bool → List Bool
  | [] => []
  | here :: row =>
    let later := sequenceRow row
    (here || later.headD false) :: later

/-- The ends of which an end in `row` is left when names with their slashes are
dropped; everything may be dropped. -/
def namesLater : List Char → List Bool → List Bool
  | c :: s, _ :: row =>
    let later := namesLater s row
    ((c == '/' && row.headD false) || later.headD false) :: later
  | _, row => row

def Token.row (token : Token) (s : List Char) (row : List Bool) : List Bool :=
  match token with
  | sequence => sequenceRow row
  | names => List.zipWith (· || ·) row (namesLater s row)
  | token => oneRow token s row

/-- For each end of `s` whether the tokens match it. -/
def row (s : List Char) : List Token → List Bool
  | [] => List.replicate s.length false ++ [true]
  | token :: tokens => token.row s (row s tokens)

def accepts (glob : Glob) (text : String) : Bool :=
  (row text.toList glob.tokens).headD false

end Glob
end Reparse.Corpus
