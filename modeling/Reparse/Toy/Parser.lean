import Reparse.Language
import Reparse.Toy.Lexer
import Reparse.Toy.Operator

/-!
# Parsing the toy language

A program is a list of statements between separators.  A statement assigns to a
name or is a sum of products of unary expressions; a primary expression is a
literal, a name, a call with arguments or a group of statements between
parentheses.  A minus before a numeric literal is part of the literal.

Every reader returns what is left of the tokens together with the fact that it
is shorter, on which the mutual recursion ends.  The budget is the number of
levels that may still be opened; a chain of operators spends one level for each
and gives them back at its end.  A bare name is a variable if it was assigned
before it in the order of the tokens.
-/

namespace Reparse.Toy

open Text

/-- What a program is read with: the name of its source and the place of its
end. -/
structure Context where
  identification : String
  stop : Place

def peek (ts : List Token) : Option TokenKind :=
  ts.head?.map (·.kind)

def Context.faultAt (ctx : Context) (ts : List Token) (cause : Cause) :
    Fault :=
  match ts with
  | t :: _ => t.start.fault cause
  | [] => ctx.stop.fault cause

/-! ## Places of nodes -/

def Token.spanTo (t : Token) (stop : Nat) : Span :=
  ⟨t.start.offset, stop, t.start.line⟩

def Token.span (t : Token) : Span :=
  t.spanTo t.stop

def stopOf (node : Node) : Nat :=
  (node.span.map (·.stop)).getD 0

def covering (first last : Node) : Option Span :=
  match first.span, last.span with
  | some a, some b => some ⟨a.start, b.stop, a.line⟩
  | _, _ => none

/-! ## Nodes -/

def symbol (name : String) : Child :=
  .atom (.sym name)

def binary (left : Node) (op : Operator) (right : Node) : Node :=
  .mk "send" [.node left, symbol op.symbol, .node right] (covering left right)

/-- The node of a list of statements: nothing, the only statement, or a
sequence. -/
def collapse? : List Node → Option Node
  | [] => none
  | [node] => some node
  | first :: second :: more =>
    let all := first :: second :: more
    some (.mk "begin" (all.map .node)
      (covering first ((second :: more).getLast (List.cons_ne_nil _ _))))

/-- The node of a name that no argument list follows. -/
def nameNode (locals : List String) (name : String) (span : Span) : Node :=
  if name ∈ locals then .mk "lvar" [symbol name] (some span)
  else .mk "send" [.atom .nil, symbol name] (some span)

/-- The node of a token that is an expression by itself. -/
def literal? (ctx : Context) (t : Token) : Option Node :=
  let leaf (kind : String) (children : List Child) :=
    some (Node.mk kind children (some t.span))
  match t.kind with
  | .int value => leaf "int" [.atom (.int value)]
  | .float value => leaf "float" [.atom (.float value)]
  | .str text => leaf "str" [.atom (.str text)]
  | .bytes data => leaf "str" [.atom (.bytes data)]
  | .sym name => leaf "sym" [symbol name]
  | .nil => leaf "nil" []
  | .bool true => leaf "true" []
  | .bool false => leaf "false" []
  | .lineWord => leaf "int" [.atom (.int (Int64.ofNat t.start.line))]
  | .fileWord => leaf "str" [.atom (.str ctx.identification)]
  | _ => none

/-- The node of a numeric literal after a minus. -/
def negated? (minus t : Token) : Option Node :=
  match t.kind with
  | .int value =>
      some (.mk "int" [.atom (.int (-value))] (some (minus.spanTo t.stop)))
  | .float value =>
      some
        (.mk "float" [.atom (.float value.neg)] (some (minus.spanTo t.stop)))
  | _ => none

/-! ## Readers -/

/-- How far a chain lies above unary expressions. -/
def Tier.rank : Tier → Nat
  | sum => 5
  | product => 3

def isSeparator (t : Token) : Bool :=
  t.kind == .separator

/-- What follows the separators in front. -/
def skipSeparators (ts : List Token) : Suffix ts :=
  Suffix.dropWhile isSeparator ts

/-- The first token, if it is of this kind, and the tokens after it. -/
def take? (kind : TokenKind) (ts : List Token) : Option (Token × Rest ts) :=
  match ts with
  | [] => none
  | t :: rest => if t.kind = kind then some (t, Rest.tail _ rest) else none

/-- The name in front, if it is assigned to, and the tokens of the value. -/
def takeTarget? (ts : List Token) : Option (Token × String × Rest ts) :=
  match ts with
  | t :: next :: rest =>
    match t.kind, next.kind with
    | .ident name, .assign =>
        some (t, name, ⟨rest, by simp only [List.length_cons]; omega⟩)
    | _, _ => none
  | _ => none

/-- The numeric literal after a minus, and the tokens after it. -/
def takeNegated? (minus : Token) (ts : List Token) : Option (Node × Rest ts) :=
  match ts with
  | [] => none
  | t :: rest => (negated? minus t).map fun node => (node, Rest.tail _ rest)

/-- The infix operator of a tier in front, and the tokens after it. -/
def takeOperator? (tier : Tier) (ts : List Token) :
    Option (Operator × Rest ts) :=
  match ts with
  | [] => none
  | t :: rest =>
    match Operator.ofToken? t.kind with
    | some op => if op.tier = tier then some (op, Rest.tail _ rest) else none
    | none => none

/-- A node, the names assigned up to its end, and the tokens after it. -/
abbrev Parsed (ts : List Token) := Node × List String × Rest ts

/-- Nodes, the offset after the parenthesis that closes them, the names
assigned up to it, and the tokens after it. -/
abbrev ParsedList (ts : List Token) := List Node × Nat × List String × Rest ts

mutual

def statement (ctx : Context) (budget : Nat) (locals : List String)
    (ts : List Token) : Except Fault (Parsed ts) :=
  match budget with
  | 0 => .error (ctx.faultAt ts .nestingTooDeep)
  | budget + 1 =>
    match takeTarget? ts with
    | some (target, name, ⟨rest, _⟩) =>
      match statement ctx budget (name :: locals) rest with
      | .error e => .error e
      | .ok (value, locals, ⟨rest', _⟩) =>
        .ok (.mk "lvasgn" [symbol name, .node value]
          (some (target.spanTo (stopOf value))), locals, ⟨rest', by omega⟩)
    | none => chain ctx .sum budget locals ts
termination_by 8 * ts.length + 6
decreasing_by
  · omega
  · simp only [Tier.rank]; omega

/-- Operands with the infix operators of a tier between them. -/
def chain (ctx : Context) (tier : Tier) (budget : Nat) (locals : List String)
    (ts : List Token) : Except Fault (Parsed ts) :=
  match operand ctx tier budget locals ts with
  | .error e => .error e
  | .ok (left, locals, ⟨rest, _⟩) =>
    match chainTail ctx tier budget left locals rest with
    | .error e => .error e
    | .ok (node, locals, ⟨rest', _⟩) => .ok (node, locals, ⟨rest', by omega⟩)
termination_by 8 * ts.length + tier.rank
decreasing_by
  · cases tier <;> simp only [Tier.rank] <;> omega
  · omega

def operand (ctx : Context) (tier : Tier) (budget : Nat) (locals : List String)
    (ts : List Token) : Except Fault (Parsed ts) :=
  match tier with
  | .sum => chain ctx .product budget locals ts
  | .product => unary ctx budget locals ts
termination_by 8 * ts.length + (tier.rank - 1)
decreasing_by
  · simp only [Tier.rank]; omega
  · simp only [Tier.rank]; omega

/-- The operators and operands that follow `left` in a chain. -/
def chainTail (ctx : Context) (tier : Tier) (budget : Nat) (left : Node)
    (locals : List String) (ts : List Token) :
    Except Fault (Node × List String × Suffix ts) :=
  match takeOperator? tier ts with
  | none => .ok (left, locals, ⟨ts, Nat.le_refl _⟩)
  | some (op, ⟨rest, _⟩) =>
    match budget with
    | 0 => .error (ctx.faultAt rest .nestingTooDeep)
    | budget + 1 =>
      match operand ctx tier budget locals rest with
      | .error e => .error e
      | .ok (right, locals, ⟨rest', _⟩) =>
        match chainTail ctx tier budget (binary left op right) locals
          rest' with
        | .error e => .error e
        | .ok (node, locals, ⟨rest'', _⟩) =>
            .ok (node, locals, ⟨rest'', by omega⟩)
termination_by 8 * ts.length
decreasing_by
  · cases tier <;> simp only [Tier.rank] <;> omega
  · omega

def unary (ctx : Context) (budget : Nat) (locals : List String)
    (ts : List Token) : Except Fault (Parsed ts) :=
  match take? .minus ts with
  | none => primary ctx budget locals ts
  | some (minus, ⟨rest, _⟩) =>
    match takeNegated? minus rest with
    | some (node, ⟨rest', _⟩) => .ok (node, locals, ⟨rest', by omega⟩)
    | none =>
      match budget with
      | 0 => .error (ctx.faultAt rest .nestingTooDeep)
      | budget + 1 =>
        match unary ctx budget locals rest with
        | .error e => .error e
        | .ok (node, locals, ⟨rest', _⟩) =>
          .ok (.mk "send" [.node node, symbol negationSymbol]
            (some (minus.spanTo (stopOf node))), locals, ⟨rest', by omega⟩)
termination_by 8 * ts.length + 1
decreasing_by
  · omega
  · omega

def primary (ctx : Context) (budget : Nat) (locals : List String)
    (ts : List Token) : Except Fault (Parsed ts) :=
  match ts with
  | [] => .error (ctx.stop.fault (.unexpectedToken none))
  | t :: rest =>
    match literal? ctx t with
    | some node => .ok (node, locals, Rest.tail _ rest)
    | none =>
      match t.kind with
      | .ident name =>
        match take? .leftParen rest with
        | none => .ok (nameNode locals name t.span, locals, Rest.tail _ rest)
        | some (_, ⟨inner, _⟩) =>
          match arguments ctx budget locals inner with
          | .error e => .error e
          | .ok (nodes, stop, locals, ⟨rest', _⟩) =>
            .ok (.mk "send" (.atom .nil :: symbol name :: nodes.map .node)
              (some (t.spanTo stop)), locals,
              ⟨rest', by simp only [List.length_cons]; omega⟩)
      | .leftParen =>
        match skipSeparators rest with
        | ⟨inner, _⟩ =>
          match group ctx budget locals inner with
          | .error e => .error e
          | .ok (nodes, stop, locals, ⟨rest', _⟩) =>
            .ok ((collapse? nodes).getD
              (.mk "begin" [] (some (t.spanTo stop))), locals,
              ⟨rest', by simp only [List.length_cons]; omega⟩)
      | kind => .error (t.start.fault (.unexpectedToken (some kind)))
termination_by 8 * ts.length
decreasing_by
  · simp only [List.length_cons]; omega
  · simp only [List.length_cons]; omega

/-- The statements up to the parenthesis that closes a group. -/
def group (ctx : Context) (budget : Nat) (locals : List String)
    (ts : List Token) : Except Fault (ParsedList ts) :=
  match take? .rightParen ts with
  | some (close, rest) => .ok ([], close.stop, locals, rest)
  | none =>
    match statement ctx budget locals ts with
    | .error e => .error e
    | .ok (node, locals, ⟨rest, _⟩) =>
      match take? .rightParen rest with
      | some (close, ⟨rest', _⟩) =>
          .ok ([node], close.stop, locals, ⟨rest', by omega⟩)
      | none =>
        match take? .separator rest with
        | none => .error (ctx.faultAt rest (.unexpectedToken (peek rest)))
        | some (_, ⟨more, _⟩) =>
          match skipSeparators more with
          | ⟨inner, _⟩ =>
            match group ctx budget locals inner with
            | .error e => .error e
            | .ok (nodes, stop, locals, ⟨rest', _⟩) =>
              .ok (node :: nodes, stop, locals, ⟨rest', by omega⟩)
termination_by 8 * ts.length + 7
decreasing_by
  · omega
  · omega

/-- The arguments up to the parenthesis that closes their list; a comma may
stand after the last. -/
def arguments (ctx : Context) (budget : Nat) (locals : List String)
    (ts : List Token) : Except Fault (ParsedList ts) :=
  match take? .rightParen ts with
  | some (close, rest) => .ok ([], close.stop, locals, rest)
  | none =>
    match statement ctx budget locals ts with
    | .error e => .error e
    | .ok (node, locals, ⟨rest, _⟩) =>
      match take? .rightParen rest with
      | some (close, ⟨rest', _⟩) =>
          .ok ([node], close.stop, locals, ⟨rest', by omega⟩)
      | none =>
        match take? .comma rest with
        | none => .error (ctx.faultAt rest (.argumentEndExpected (peek rest)))
        | some (_, ⟨inner, _⟩) =>
          match arguments ctx budget locals inner with
          | .error e => .error e
          | .ok (nodes, stop, locals, ⟨rest', _⟩) =>
            .ok (node :: nodes, stop, locals, ⟨rest', by omega⟩)
termination_by 8 * ts.length + 7
decreasing_by
  · omega
  · omega

end

/-! ## Programs -/

/-- The statements up to the end of the tokens. -/
def statements (ctx : Context) (locals : List String) (ts : List Token) :
    Except Fault (List Node) :=
  if ts.isEmpty then .ok []
  else
    match statement ctx maxNesting locals ts with
    | .error e => .error e
    | .ok (node, locals, ⟨rest, _⟩) =>
      if rest.isEmpty then .ok [node]
      else
        match take? .separator rest with
        | none => .error (ctx.faultAt rest (.unexpectedToken (peek rest)))
        | some (_, ⟨more, _⟩) =>
          match skipSeparators more with
          | ⟨inner, _⟩ =>
            match statements ctx locals inner with
            | .error e => .error e
            | .ok nodes => .ok (node :: nodes)
termination_by ts.length
decreasing_by
  omega

def readProgram (encoding : Encoding) (identification : String)
    (text : List Char) : Except Fault (List Node × List Comment) :=
  match lex encoding text with
  | .error e => .error e
  | .ok lexed =>
    match statements ⟨identification, lexed.stop⟩ []
      (skipSeparators lexed.tokens).val with
    | .error e => .error e
    | .ok nodes => .ok (nodes, lexed.comments)

def Fault.toSyntaxError (fault : Fault) (identification : String) :
    SyntaxError :=
  ⟨identification, fault.line, fault.column, fault.cause.message⟩

/-- The tree of a source, with its comments when they are to be kept. -/
def parse (keepComments : Bool) (source : Source) (identification : String) :
    Except SyntaxError Tree :=
  match readProgram source.encoding identification source.text with
  | .error fault => .error (fault.toSyntaxError identification)
  | .ok (nodes, comments) =>
      .ok ⟨collapse? nodes, if keepComments then some comments else none⟩

def version : String := "1.0"

def parser (keepComments : Bool) : Parser :=
  ⟨version, parse keepComments⟩

end Reparse.Toy
