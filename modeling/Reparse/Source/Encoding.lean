import Reparse.Text.Blank
import Reparse.Text.Digits
import Reparse.Text.Utf8

/-!
# Encodings

The three encodings a source may declare, and the bytes of a text in each.  A
text is encodable when all its characters lie in the repertoire: all characters
for UTF-8, those below U+0080 for US-ASCII, those below U+0100 for raw bytes.
-/

namespace Reparse

/-- `binary` stands for raw bytes, each the code point of its value. -/
inductive Encoding where
  | utf8
  | usAscii
  | binary
  deriving DecidableEq

namespace Encoding

def name : Encoding → String
  | utf8 => "UTF-8"
  | usAscii => "US-ASCII"
  | binary => "ASCII-8BIT"

def ofName? (name : String) : Option Encoding :=
  match String.ofList (name.toList.map Char.toLower) with
  | "utf-8" | "utf8" => some utf8
  | "us-ascii" | "ascii" => some usAscii
  | "ascii-8bit" | "binary" => some binary
  | _ => none

def unknownName (name : String) : String :=
  s!"unknown encoding: {name}"

/-- The characters of the repertoire. -/
def represents : Encoding → Char → Bool
  | utf8, _ => true
  | usAscii, c => c.toNat < 0x80
  | binary, c => c.toNat < 0x100

/-- The bytes of a character of the repertoire. -/
def encodeChar : Encoding → Char → List UInt8
  | utf8, c => Text.Utf8.encodeChar c
  | _, c => [UInt8.ofNat c.toNat]

/-- The bytes of a text, or the first character outside the repertoire. -/
def encode (encoding : Encoding) (text : List Char) :
    Except Char (List UInt8) :=
  match text.find? fun c => !encoding.represents c with
  | some c => .error c
  | none => .ok (text.flatMap encoding.encodeChar)

def encodes (encoding : Encoding) (text : List Char) : Bool :=
  text.all encoding.represents

/-- The text of a byte string.  Bytes that are not UTF-8 give U+FFFD, also
where US-ASCII is declared. -/
def decode : Encoding → List UInt8 → List Char
  | binary, bytes => bytes.map fun b => Char.ofNat b.toNat
  | _, bytes => Text.Utf8.decodeLossy bytes

/-- A code point in at least four upper-case digits. -/
def codePointName (c : Char) : String :=
  String.ofList
    ('U' :: '+' :: Text.padStart 4 '0' ((Text.hex c.toNat).map Char.toUpper))

end Encoding
end Reparse
