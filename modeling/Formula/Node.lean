import Formula.Operator
import Formula.TypeName
import Formula.Value

/-!
# Expression trees

The tree of an expression as it is read and arranged, before names mean anything. A block is a flat
list of operands and operators; a route is a dotted chain of names, calls and indexers.

Every node has a mark: its own number, under which its binding is kept, and the byte offset it was
read at.
-/

namespace Formula

/-- The number of a node and its offset in the source. -/
structure Mark where
  slot : Nat
  offset : Nat
deriving Repr, DecidableEq, Inhabited

/-- One link of a route; `α` is what arguments are. -/
inductive Segment (α : Type) where
  | member (mark : Mark) (name : String) (generics : List TypeName)
  | method (mark : Mark) (name : String) (generics : List TypeName) (args : List α)
  | indexer (mark : Mark) (args : List α)

/-- What the head of a route may name: anything in scope, or a type only. -/
inductive RouteHead where
  | scope
  | type
deriving Repr, DecidableEq

/-- A node of an expression tree. A cast is a block of its own: the marked type, operators that
stand before the operand, and the operand. -/
inductive Node where
  | constant (mark : Mark) (value : Value)
  | operator (mark : Mark) (op : Operator)
  | cast (mark typeMark : Mark) (target : TypeName) (signs : List (Mark × Operator))
      (operand : Node)
  | route (mark : Mark) (head : RouteHead) (segments : List (Segment Node))
  | block (mark : Mark) (items : List Node)
  | unresolved (mark : Mark) (raw : String)

namespace Segment

variable {α β : Type}

/-- The mark of a segment. -/
def mark : Segment α → Mark
  | .member m .. | .method m .. | .indexer m _ => m

/-- Whether the segment is an indexer. -/
def isIndexer : Segment α → Bool
  | .indexer .. => true
  | _ => false

/-- The arguments of a segment. -/
def args : Segment α → List α
  | .member .. => []
  | .method _ _ _ args | .indexer _ args => args

/-- Changes the arguments one by one. -/
def map (f : α → β) : Segment α → Segment β
  | .member m name generics => .member m name generics
  | .method m name generics args => .method m name generics (args.map f)
  | .indexer m args => .indexer m (args.map f)

end Segment

namespace Node

instance : Inhabited Node := ⟨.block default []⟩

/-- The mark of a node. -/
def mark : Node → Mark
  | .constant m _ | .operator m _ | .cast m .. | .route m .. | .block m _ | .unresolved m _ => m

/-- The offset a node was read at. -/
def offset (n : Node) : Nat := n.mark.offset

/-- The operator of an operator node. -/
def operator? : Node → Option Operator
  | .operator _ op => some op
  | _ => none

/-- Whether the node is an operator. -/
def isOperator (n : Node) : Bool := n.operator?.isSome

/-- Whether the node is a block, a cast being one. -/
def isBlock : Node → Bool
  | .block .. | .cast .. => true
  | _ => false

end Node

end Formula
