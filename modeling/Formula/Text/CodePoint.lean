/-!
# Sets of code points

A set of code points is given by the lengths of its runs: so many code points are outside, so many
are inside, and so on by turns.
-/

namespace Formula.Text

/-- Whether a number lies in one of the runs inside. -/
def inRuns : List Nat → Nat → Bool
  | gap :: run :: rest, c => gap ≤ c && (c < gap + run || inRuns rest (c - (gap + run)))
  | _, _ => false

end Formula.Text
