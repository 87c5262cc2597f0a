import Formula.Bound
import Formula.Error

/-!
# Slots

Bindings are kept by the number of the node they belong to. A slot is filled at most once: what a
node was bound to first is what it stays bound to, whatever is asked later. A failure leaves the
slot of its node empty, but not those of the nodes that were bound on the way.
-/

namespace Formula

/-- The bindings of the nodes so far. -/
structure Slots where
  entries : Array (Option Bound)

namespace Slots

/-- Empty slots for `n` nodes. -/
def empty (n : Nat) : Slots := ⟨Array.replicate n none⟩

/-- The binding in a slot. -/
def get? (s : Slots) (slot : Nat) : Option Bound := (s.entries[slot]?).join

/-- Puts a binding into a slot. -/
def fill (s : Slots) (slot : Nat) (b : Bound) : Slots := ⟨s.entries.setIfInBounds slot (some b)⟩

/-- Number of filled slots. -/
def filled (s : Slots) : Nat := s.entries.countP Option.isSome

end Slots

/-- What binding asks of a monad: failure with a build error, and slots that keep the bindings of
nodes. -/
class BindMonad (m : Type → Type) extends Monad m, MonadExceptOf BuildError m where
  /-- Answers from a slot, or runs the computation and keeps what it succeeds with. -/
  keep : (slot : Nat) → (action : m Bound) → m Bound

/-- A computation that binds nodes. The slots it filled stay filled when it fails. -/
abbrev Resolving := ExceptT BuildError (StateM Slots)

instance : BindMonad Resolving where
  keep slot action :=
    ExceptT.mk fun slots =>
      match slots.get? slot with
      | some b => (.ok b, slots)
      | none =>
        match action.run slots with
        | (.ok b, slots) => (.ok b, slots.fill slot b)
        | (.error e, slots) => (.error e, slots)

/-- Binding without slots: every node is bound whenever it is asked for. -/
instance : BindMonad (Except BuildError) where
  keep _ action := action

end Formula
