import Reparse.Source.Digest
import Reparse.Source.Encoding

/-!
# Sources

A source is a byte string with the encoding it is declared in.  A source read
from a file declares its encoding in a comment on the first line,
`# encoding: NAME`; without one it is UTF-8.
-/

namespace Reparse

structure Source where
  bytes : List UInt8
  encoding : Encoding
  deriving DecidableEq

namespace Source

def ofText (text : List Char) : Source :=
  ⟨Text.Utf8.encode text, .utf8⟩

/-- The encoding that a first line declares. -/
def declared? (line : List Char) : Option Encoding := do
  let comment ← Text.dropStart? ['#'] (Text.trim line)
  let name ← Text.dropStart? "encoding:".toList (Text.trim comment)
  Encoding.ofName? (String.ofList (Text.trim name))

/-- A source of the encoding that its first line declares.  A first line that
is not UTF-8 declares none. -/
def detect (bytes : List UInt8) : Source :=
  let line := Text.Utf8.decode? (bytes.takeWhile (· != 10))
  ⟨bytes, (line.bind declared?).getD .utf8⟩

/-- The text of a source, for reading and for display. -/
def text (source : Source) : List Char :=
  source.encoding.decode source.bytes

/-- Another text in the encoding of this source, or the first character that
the encoding lacks. -/
def reencode (source : Source) (text : List Char) : Except Char Source :=
  (source.encoding.encode text).map fun bytes => ⟨bytes, source.encoding⟩

/-- The SHA-256 of the bytes, in hexadecimal. -/
def digest (source : Source) : String :=
  String.ofList (Sha256.digest source.bytes)

end Source
end Reparse
