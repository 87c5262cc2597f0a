import Formula.Host

/-!
# Bound trees

An expression after every name has found its meaning: each node has a type, and carries what the
host found for it.
-/

namespace Formula

/-- A typed node. A member or a call without a target is static. -/
inductive Bound where
  | const (ty : Ty) (value : Value)
  | param (ty : Ty) (index : Nat)
  | this (ty : Ty)
  | member (ty : Ty) (target : Option Bound) (member : Member)
  | call (ty : Ty) (target : Option Bound) (method : Method) (args : List Bound)
  | index (ty : Ty) (target : Bound) (indexer : Indexer) (args : List Bound)
  | convert (ty : Ty) (conversion : Conversion) (operand : Bound)
  | negate (ty : Ty) (operand : Bound)
  | binary (ty : Ty) (op : ArithOp) (left right : Bound)

namespace Bound

instance : Inhabited Bound := ⟨.this .void⟩

/-- The type of a node. -/
def ty : Bound → Ty
  | .const t _ | .param t _ | .this t | .member t _ _ | .call t _ _ _ | .index t _ _ _
  | .convert t _ _ | .negate t _ | .binary t _ _ _ => t

/-- The value of a constant. -/
def const? : Bound → Option Value
  | .const _ v => some v
  | _ => none

mutual

/-- Number of nodes on the longest path down to a leaf. -/
def depth : Bound → Nat
  | .const .. | .param .. | .this _ | .member _ none _ => 1
  | .member _ (some target) _ => 1 + depth target
  | .call _ none _ args => 1 + maxDepth args
  | .call _ (some target) _ args => 1 + max (depth target) (maxDepth args)
  | .index _ target _ args => 1 + max (depth target) (maxDepth args)
  | .convert _ _ operand | .negate _ operand => 1 + depth operand
  | .binary _ _ left right => 1 + max (depth left) (depth right)

/-- The greatest depth in a list, zero if it is empty. -/
def maxDepth : List Bound → Nat
  | [] => 0
  | b :: bs => max (depth b) (maxDepth bs)

end

mutual

/-- Whether the receiver is read anywhere. -/
def usesReceiver : Bound → Bool
  | .this _ => true
  | .const .. | .param .. | .member _ none _ => false
  | .member _ (some target) _ => usesReceiver target
  | .call _ none _ args => anyUsesReceiver args
  | .call _ (some target) _ args => usesReceiver target || anyUsesReceiver args
  | .index _ target _ args => usesReceiver target || anyUsesReceiver args
  | .convert _ _ operand | .negate _ operand => usesReceiver operand
  | .binary _ _ left right => usesReceiver left || usesReceiver right

/-- Whether the receiver is read anywhere in a list. -/
def anyUsesReceiver : List Bound → Bool
  | [] => false
  | b :: bs => usesReceiver b || anyUsesReceiver bs

end

end Bound

end Formula
