import Reparse.Toy.Token

/-!
# Infix operators

The four infix operators in their two tiers.  Operands of a sum are products;
within a tier operators associate to the left.
-/

namespace Reparse.Toy

inductive Operator where
  | plus
  | minus
  | times
  | divide
  deriving DecidableEq

inductive Tier where
  | sum
  | product
  deriving DecidableEq

namespace Operator

def sign : Operator → Char
  | plus => '+'
  | minus => '-'
  | times => '*'
  | divide => '/'

/-- The symbol that stands for the operator in a tree. -/
def symbol (op : Operator) : String :=
  op.sign.toString

def tier : Operator → Tier
  | plus | minus => .sum
  | times | divide => .product

def ofSymbol? : String → Option Operator
  | "+" => some plus
  | "-" => some minus
  | "*" => some times
  | "/" => some divide
  | _ => none

theorem ofSymbol?_symbol (op : Operator) : ofSymbol? op.symbol = some op := by
  cases op <;> rfl

def ofToken? : TokenKind → Option Operator
  | .plus => some plus
  | .minus => some minus
  | .star => some times
  | .slash => some divide
  | _ => none

end Operator

def negationSymbol : String := "-@"

end Reparse.Toy
