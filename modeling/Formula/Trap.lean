/-!
# Machine words

Counts, sizes and positions are numbers of 64 bits. Arithmetic on them does not wrap around: a
result that is no such number is a trap, and so is a list that is read behind its end. A trap is
an outcome of its own. Nothing answers for it, and whatever asked for the number stops with it.
-/

namespace Formula

/-- What a computation stopped at. -/
inductive Trap where
  /-- The number of whole digits of a decimal is no signed word. -/
  | digitCount
  /-- The number of items of a shape is no word. -/
  | itemCount
  /-- The position of an item is no word. -/
  | itemPosition
  /-- The items end before the position. -/
  | outsideItems (position length : Nat)
deriving Repr, DecidableEq

/-- The wording of a trap. -/
def Trap.message : Trap → String
  | .digitCount => "the digits of a decimal cannot be counted"
  | .itemCount => "the items of a shape cannot be counted"
  | .itemPosition => "the position of an item cannot be computed"
  | .outsideItems position length =>
    "position " ++ toString position ++ " is beyond the " ++ toString length ++ " stored items"

/-- Number of distinct machine words. -/
def wordCount : Nat := Nat.pow 2 64

/-- The number as a machine word. -/
def word (trap : Trap) (n : Nat) : Except Trap Nat :=
  if n < wordCount then .ok n else .error trap

/-- The number as a signed machine word. -/
def signedWord (trap : Trap) (i : Int) : Except Trap Int :=
  if -Int.pow 2 63 ≤ i ∧ i < Int.pow 2 63 then .ok i else .error trap

end Formula
