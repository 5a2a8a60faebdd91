import Reparse.Proofs.Toy.Reading
import Reparse.Proofs.Toy.Scanner

/-!
# Reading statements by positions

The parser here keeps the whole list of items, with the mark at its end, and
goes through it by a position.  It takes items at positions that have to be in
range, and at the mark it does not move any further.  The number of levels that
are open counts upwards, from an assignment or an operand also when it is
rejected.

What a form is read with are the readers of its parts.  The readers are tied
together by the number of rounds that they are granted, one for each reader
that is entered and for each round of a loop.
-/

namespace Reparse.Toy

/-- How far the parser has come: the position, the names assigned before it,
and the levels open. -/
structure Cursor where
  pos : Nat
  locals : List String
  depth : Nat

abbrev Step := Checked Cursor

namespace Cursor

open Checked

def start : Cursor := ⟨0, [], 0⟩

section Items

variable (items : List Item)

/-! ## The item in front -/

def current : Step Item := do
  let st ← state
  elementAt items st.pos

/-- The kind of the token in front, or nothing at the mark. -/
def peek : Step (Option TokenKind) := do
  let item ← current items
  pure item.kind

/-- The kind of the token behind the one in front; the mark is followed by
itself. -/
def peekNext : Step (Option TokenKind) := do
  let st ← state
  let last ← difference items.length 1
  let item ← elementAt items (min (st.pos + 1) last)
  pure item.kind

def advance : Step Item := do
  let item ← current items
  let last ← difference items.length 1
  update fun st => if st.pos < last then { st with pos := st.pos + 1 } else st
  pure item

def reject {α : Type} (cause : Cause) : Step α := do
  let item ← current items
  report (item.place.fault cause)

def skipSeparators : Nat → Step Unit
  | 0 => spent
  | n + 1 => do
    let next ← peek items
    if next = some .separator then do
      let _ ← advance items
      skipSeparators n
    else pure ()

/-! ## Levels -/

def descend : Step Unit := do
  update fun st => { st with depth := st.depth + 1 }
  let st ← state
  if maxNesting < st.depth then reject items .nestingTooDeep else pure ()

def ascend : Step Unit := do
  let st ← state
  let depth ← difference st.depth 1
  update fun st => { st with depth }

/-- Reads one level deeper, and closes the level also after a fault. -/
def nested {α : Type} (read : Step α) : Step α := do
  descend items
  let result ← attempt read
  ascend
  settle result

/-! ## Statements and chains -/

/-- The name in front, if it is assigned to. -/
def target? : Step (Option String) := do
  match ← peek items with
  | some (.ident name) => do
    let next ← peekNext items
    if next = some .assign then pure (some name) else pure none
  | _ => pure none

def assignment (value : Step Node) (name : String) : Step Node := do
  let target ← advance items
  let _ ← advance items
  update fun st => { st with locals := name :: st.locals }
  let node ← value
  pure (.mk "lvasgn" [symbol name, .node node]
    (some (target.spanTo (stopOf node))))

def statement (value expression : Step Node) : Step Node :=
  nested items do
    match ← target? items with
    | some name => assignment items value name
    | none => expression

/-- The operators and operands that follow in a chain; each leaves a level
open. -/
def tail (operand : Step Node) (tier : Tier) : Nat → Node → Step Node
  | 0, _ => spent
  | n + 1, left => do
    let next ← peek items
    match next.bind Operator.ofToken? with
    | some op =>
      if op.tier = tier then do
        let _ ← advance items
        descend items
        let right ← operand
        tail operand tier n (binary left op right)
      else pure left
    | none => pure left

/-- A chain gives back the levels that its operators have opened. -/
def chain (operand : Step Node) (tier : Tier) (n : Nat) : Step Node := do
  let st ← state
  let left ← operand
  let node ← tail items operand tier n left
  update fun last => { last with depth := st.depth }
  pure node

/-! ## Operands -/

def unary (operand primary : Step Node) : Step Node := do
  let first ← peek items
  if first = some .minus then do
    let minus ← advance items
    match ← peek items with
    | some (.int value) => do
      let literal ← advance items
      let value ← negative value
      pure (.mk "int" [.atom (.int value)]
        (some (minus.spanTo literal.stopOffset)))
    | some (.float value) => do
      let literal ← advance items
      pure (.mk "float" [.atom (.float value.neg)]
        (some (minus.spanTo literal.stopOffset)))
    | _ => do
      let node ← nested items operand
      pure (.mk "send" [.node node, symbol negationSymbol]
        (some (minus.spanTo (stopOf node))))
  else primary

/-- What a name in front stands for, which has been taken. -/
def identifier (call : Step (List Node × Nat)) (t : Token) (name : String) :
    Step Node := do
  let next ← peek items
  if next = some .leftParen then do
    let _ ← advance items
    let (nodes, stop) ← call
    pure (.mk "send" (.atom .nil :: symbol name :: nodes.map .node)
      (some (t.spanTo stop)))
  else do
    let st ← state
    pure (nameNode st.locals name t.span)

def parenthesized (group : Step (List Node × Nat)) (t : Token) (n : Nat) :
    Step Node := do
  skipSeparators items n
  let (nodes, stop) ← group
  pure ((collapse? nodes).getD (.mk "begin" [] (some (t.spanTo stop))))

/-- Goes back to a position and rejects the item there. -/
def rejectAt {α : Type} (pos : Nat) (found : Option TokenKind) : Step α := do
  update fun st => { st with pos }
  reject items (.unexpectedToken found)

def primary (identification : String) (group call : Step (List Node × Nat))
    (n : Nat) : Step Node := do
  let st ← state
  match ← advance items with
  | .stop _ => rejectAt items st.pos none
  | .token t =>
    -- No literal stands for the end of the text, whose place is not known
    -- here.
    match literal? ⟨identification, t.start⟩ t with
    | some node => pure node
    | none =>
      match t.kind with
      | .ident name => identifier items call t name
      | .leftParen => parenthesized items group t n
      | kind => rejectAt items st.pos (some kind)

/-! ## Lists -/

/-- The statements up to a terminator, which is not taken. -/
def statements (statement : Step Node) (terminator : Option TokenKind) :
    Nat → Step (List Node)
  | 0 => spent
  | n + 1 => do
    let first ← peek items
    if first = terminator then pure []
    else do
      let node ← statement
      let next ← peek items
      if next = terminator then pure [node]
      else if next = some .separator then do
        skipSeparators items n
        let more ← statements statement terminator n
        pure (node :: more)
      else reject items (.unexpectedToken next)

/-- The arguments up to a closing parenthesis, which is not taken. -/
def arguments (statement : Step Node) : Nat → Step (List Node)
  | 0 => spent
  | n + 1 => do
    let first ← peek items
    if first = some .rightParen then pure []
    else do
      let node ← statement
      let next ← peek items
      if next = some .comma then do
        let _ ← advance items
        let more ← arguments statement n
        pure (node :: more)
      else if next = some .rightParen then pure [node]
      else reject items (.argumentEndExpected next)

/-- The nodes of a list and the offset after the parenthesis that closes it. -/
def closed (list : Step (List Node)) : Step (List Node × Nat) := do
  let nodes ← list
  let close ← advance items
  pure (nodes, close.stopOffset)

/-! ## The readers of all forms -/

variable (identification : String)

def run : Nat → (form : Form) → Step form.Result
  | 0, _ => spent
  | n + 1, .statement =>
      statement items (run n .statement) (run n (.chain .sum))
  | n + 1, .chain tier => chain items (run n (.operand tier)) tier n
  | n + 1, .operand .sum => run n (.chain .product)
  | n + 1, .operand .product => run n .unary
  | n + 1, .tail tier left => tail items (run n (.operand tier)) tier n left
  | n + 1, .unary => unary items (run n .unary) (run n .primary)
  | n + 1, .primary =>
    primary items identification (run n (.items .group))
      (run n (.items .call)) n
  | n + 1, .items .group =>
    closed items (statements items (run n .statement) (some .rightParen) n)
  | n + 1, .items .call => closed items (arguments items (run n .statement) n)

def program (n : Nat) : Step (List Node) := do
  skipSeparators items n
  statements items (run items identification n .statement) none n

end Items

end Cursor

end Reparse.Toy
