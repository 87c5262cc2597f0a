import Formula.Error

/-!
# Rectangular arrays

An array has any number of dimensions and keeps its items in one list, the last index running
fastest. Sizes and positions are machine words: a shape whose items cannot be counted traps.
-/

namespace Formula

/-- Items in row-major order, with the extents of the dimensions. -/
structure Grid (α : Type) where
  dims : List Nat
  items : List α
deriving Repr

namespace Grid

variable {α : Type}

/-- The product of the extents, each step of it a machine word. -/
def volume (dims : List Nat) : Except Trap Nat :=
  dims.foldlM (fun n d => word .itemCount (n * d)) 1

/-- The array of one dimension. -/
def ofList (items : List α) : Grid α := ⟨[items.length], items⟩

/-- The array of a shape, if it has dimensions and its volume is the number of items. -/
def ofDims? (dims : List Nat) (items : List α) : Except Trap (Option (Grid α)) :=
  if dims.isEmpty then .ok none
  else (volume dims).map fun n => if n = items.length then some ⟨dims, items⟩ else none

/-- Number of dimensions. -/
def rank (g : Grid α) : Nat := g.dims.length

/-- Number of items. -/
def length (g : Grid α) : Nat := g.items.length

/-- Walks the indices and the extents together, from the position `flat` reached so far. -/
def locate (flat : Nat) : List Int → List Nat → Except RunError Nat
  | index :: indices, dim :: dims =>
    if index < 0 ∨ dim ≤ index.toNat then .error (.indexOutOfRange index dim)
    else
      match word .itemPosition (flat * dim + index.toNat) with
      | .error trap => .error (.trapped trap)
      | .ok flat => locate flat indices dims
  | _, _ => .ok flat

/-- The position of the item the indices name: one index a dimension, each within its extent. -/
def position (g : Grid α) (indices : List Int) : Except RunError Nat :=
  if indices.length ≠ g.rank then
    .error (.invalidValue (toString g.rank ++ " indices") (toString indices.length ++ " indices"))
  else locate 0 indices g.dims

/-- The item the indices name. -/
def get (g : Grid α) (indices : List Int) : Except RunError α :=
  match g.position indices with
  | .error e => .error e
  | .ok p =>
    match g.items[p]? with
    | some item => .ok item
    | none => .error (.trapped (.outsideItems p g.length))

end Grid

end Formula
