import Reparse.Text.CodeRange
import Reparse.Text.Digits

/-!
# Quoted text in messages

Messages show a text or a character between quotes.  A backslash and the
enclosing quote are escaped, and so is whatever would not show as itself: the
usual control characters by a letter, the rest by its code point.
-/

namespace Reparse.Text

/-- The code point of a character between braces. -/
def codePointEscape (c : Char) : List Char :=
  '\\' :: 'u' :: '{' :: hex c.toNat ++ ['}']

/-- The voicing marks of the halfwidth Katakana, which extend the character
before them and yet take a place of their own. -/
def isHalfwidthMark (c : Char) : Bool :=
  c == '\uff9e' || c == '\uff9f'

/-- Whether a character shows as itself wherever it stands. -/
def showsAsItself (c : Char) : Bool :=
  !isUnprintable c && !isDefaultIgnorable c &&
    (!isGraphemeExtend c || isHalfwidthMark c)

/-- A character as it stands between two of `quote`. -/
def quoteChar (quote c : Char) : List Char :=
  if c = '\x00' then ['\\', '0']
  else if c = '\t' then ['\\', 't']
  else if c = '\r' then ['\\', 'r']
  else if c = '\n' then ['\\', 'n']
  else if c = '\\' ∨ c = quote then ['\\', c]
  else if showsAsItself c then [c]
  else codePointEscape c

def quoted (s : List Char) : List Char :=
  '"' :: s.flatMap (quoteChar '"') ++ ['"']

def quotedChar (c : Char) : List Char :=
  '\'' :: quoteChar '\'' c ++ ['\'']

end Reparse.Text
