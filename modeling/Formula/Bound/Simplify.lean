import Formula.Bound

/-!
# Simplification

Constant parts of a tree are computed beforehand, double negations go away, and so do the neutral
operands of integer arithmetic. What the host does is never run beforehand, and a computation that
fails is left for the evaluation to report.
-/

namespace Formula

namespace Bound

/-- Whether a node is a constant with the integer value `n`. -/
def isInteger (n : Int) (b : Bound) : Bool := (b.const?.bind Value.toInt64?) = some n

/-- The operand that remains of `x + 0`, `0 + x`, `x - 0`, `x * 1`, `x / 1` and `1 * x` on integer
kinds. -/
def neutral? (op : ArithOp) (l r : Bound) : Option Bound :=
  if l.ty.kind?.any Kind.isInteger then
    match op with
    | .add => if r.isInteger 0 then some l else if l.isInteger 0 then some r else none
    | .sub => if r.isInteger 0 then some l else none
    | .mul => if r.isInteger 1 then some l else if l.isInteger 1 then some r else none
    | .div => if r.isInteger 1 then some l else none
    | _ => none
  else none

/-- The value of a conversion of a constant, if it has one. -/
def convertConst? (conversion : Conversion) (v : Value) : Option Value :=
  match conversion with
  | .identity => some v
  | .numeric kind => (v.convert kind).toOption
  | .custom _ => none

/-- A conversion of a simplified operand. -/
def simplifyConvert (ty : Ty) (conversion : Conversion) (operand : Bound) : Bound :=
  match operand.const?.bind (convertConst? conversion) with
  | some v => .const ty v
  | none => .convert ty conversion operand

/-- The negation of a simplified operand. -/
def simplifyNegate (ty : Ty) (operand : Bound) : Bound :=
  match operand.const?.bind fun v => v.negate.toOption with
  | some v => .const ty v
  | none =>
    match operand with
    | .negate _ x => if x.ty = ty then x else .negate ty operand
    | _ => .negate ty operand

/-- An operator between simplified operands. -/
def simplifyBinary (ty : Ty) (op : ArithOp) (l r : Bound) : Bound :=
  match l.const?.bind fun a => r.const?.bind fun b => (Value.arith op a b).toOption with
  | some v => .const ty v
  | none =>
    match neutral? op l r with
    | some x => x
    | none => .binary ty op l r

/-- Simplifies a tree down to the nodes that belong to the host. -/
def simplify : Bound → Bound
  | .convert ty conversion operand => simplifyConvert ty conversion (simplify operand)
  | .negate ty operand => simplifyNegate ty (simplify operand)
  | .binary ty op left right => simplifyBinary ty op (simplify left) (simplify right)
  | b => b

end Bound

end Formula
