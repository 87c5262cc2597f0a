/-!
# Operators

The arithmetic operators, and the operator tokens of source text: the same six and the bar, which
only ever delimits an absolute value.
-/

namespace Formula

/-- An arithmetic operator between two operands. -/
inductive ArithOp where
  | add | sub | mul | div | rem | pow
deriving Repr, DecidableEq

/-- The symbol of an arithmetic operator. -/
def ArithOp.symbol : ArithOp → Char
  | .add => '+'
  | .sub => '-'
  | .mul => '*'
  | .div => '/'
  | .rem => '%'
  | .pow => '^'

/-- An operator token. -/
inductive Operator where
  | arith (op : ArithOp)
  | bar
deriving Repr, DecidableEq

namespace Operator

/-- The symbol of a token. -/
def symbol : Operator → Char
  | .arith op => op.symbol
  | .bar => '|'

/-- The token a character stands for. -/
def ofChar? : Char → Option Operator
  | '+' => some (.arith .add)
  | '-' => some (.arith .sub)
  | '*' => some (.arith .mul)
  | '/' => some (.arith .div)
  | '%' => some (.arith .rem)
  | '^' => some (.arith .pow)
  | '|' => some .bar
  | _ => none

/-- Whether the token joins the factors of a product. -/
def isMultiplicative : Operator → Bool
  | .arith .mul | .arith .div | .arith .rem => true
  | _ => false

/-- Whether the token can stand before an operand as its sign. -/
def isSign : Operator → Bool
  | .arith .add | .arith .sub => true
  | _ => false

/-- A token is read back from its symbol. -/
theorem ofChar?_symbol (op : Operator) : ofChar? op.symbol = some op := by
  cases op with
  | arith op => cases op <;> rfl
  | bar => rfl

end Operator

end Formula
