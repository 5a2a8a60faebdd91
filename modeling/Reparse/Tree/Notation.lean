import Reparse.Binary64.Notation
import Reparse.Text.Blank
import Reparse.Text.Quoted
import Reparse.Tree.Basic

/-!
# Trees in parentheses

A node is written as its kind and its children between parentheses:
`(send nil :f (int 1))`.  A string stands in quotes, a symbol after a colon,
bytes as digits after `#x`.  `Node.write` puts a node on one line; `Node.lines`
gives every node that has nodes below it lines of its own, indented by depth,
with the closing parentheses at the end of the last.
-/

namespace Reparse

open Text

/-- Numbers are written positionally from `0.0001` up to, but not including,
`1e16`; the larger of two equally near decimals is taken. -/
def literalLayout : Binary64.Layout := ⟨-4, 15, false, .up⟩

/-- A number as it is written in trees and in program text. -/
def Binary64.literal (x : Binary64) : List Char :=
  x.write literalLayout

/-- A character as it stands inside a quoted string. -/
def escapeChar (c : Char) : List Char :=
  if c = '"' ∨ c = '\\' then ['\\', c]
  else if c = '\n' then ['\\', 'n']
  else if c = '\t' then ['\\', 't']
  else if c = '\r' then ['\\', 'r']
  else if isControl c then codePointEscape c
  else [c]

/-- A string in quotes, with the escapes that the reader understands. -/
def quote (s : List Char) : List Char :=
  '"' :: s.flatMap escapeChar ++ ['"']

def Atom.write : Atom → List Char
  | .nil => "nil".toList
  | .bool true => "true".toList
  | .bool false => "false".toList
  | .int value => decimalInt value.toInt
  | .float value => value.literal
  | .str text => quote text.toList
  | .bytes data => '#' :: 'x' :: hexBytes data
  | .sym name => ':' :: name.toList

/-! ## One line -/

mutual

def Node.write : Node → List Char
  | .mk kind children _ =>
      '(' :: kind.toList ++ Child.writeList children ++ [')']

def Child.write : Child → List Char
  | .node n => n.write
  | .atom a => a.write

/-- Each child after a space. -/
def Child.writeList : List Child → List Char
  | [] => []
  | c :: cs => ' ' :: c.write ++ Child.writeList cs

end

/-! ## Indented lines -/

def indent (depth : Nat) : List Char :=
  List.replicate (2 * depth) ' '

/-- The lines with a closing parenthesis after the last. -/
def closeLast : List (List Char) → List (List Char)
  | [] => []
  | [line] => [line ++ [')']]
  | line :: lines => line :: closeLast lines

mutual

def Node.linesAt (depth : Nat) : Node → List (List Char)
  | .mk kind children span =>
    if (Node.mk kind children span).nodes.isEmpty then
      [indent depth ++ Node.write (.mk kind children span)]
    else
      closeLast ((indent depth ++ '(' :: kind.toList) ::
        Child.linesAtList (depth + 1) children)

def Child.linesAt (depth : Nat) : Child → List (List Char)
  | .node n => n.linesAt depth
  | .atom a => [indent depth ++ a.write]

def Child.linesAtList (depth : Nat) : List Child → List (List Char)
  | [] => []
  | c :: cs => c.linesAt depth ++ Child.linesAtList depth cs

end

def Node.lines (node : Node) : List (List Char) :=
  node.linesAt 0

/-- The root as indented lines, `nil` when there is none, then a line for each
comment. -/
def Tree.lines (tree : Tree) : List (List Char) :=
  (match tree.root with
    | some root => root.lines
    | none => ["nil".toList]) ++
  (tree.comments.getD []).map fun comment => ';' :: ' ' :: comment.text.toList

def Node.toString (node : Node) : String :=
  String.ofList node.write

def Tree.render (tree : Tree) : String :=
  String.intercalate "\n" (tree.lines.map String.ofList)

end Reparse
