import Formula.Ty

/-!
# Contexts

What the bare names of an expression refer to: parameters by position, and the members of a base
type, which the parameters hide.
-/

namespace Formula

/-- A named input. -/
structure Parameter where
  name : String
  ty : Ty
deriving Repr, DecidableEq

/-- The parameters, in the order of their values, and the type of the receiver if there is one. -/
structure Context where
  base : Option Ty
  parameters : List Parameter
deriving Repr, DecidableEq

/-- The first parameter of a name, with its position. -/
def Context.parameter? (c : Context) (name : String) : Option (Nat × Parameter) :=
  (c.parameters.zipIdx.find? fun p => p.1.name = name).map fun p => (p.2, p.1)

end Formula
