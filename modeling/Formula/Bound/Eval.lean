import Formula.Bound

/-!
# Evaluation

A bound tree is evaluated against a receiver and the values of the parameters. Targets come before
arguments, left before right, and the first error ends the evaluation.
-/

namespace Formula

/-- The inputs of one evaluation. -/
structure Frame where
  receiver : Option Value
  values : List Value

/-- Refuses null as the target of `reading`. -/
def nonNull (reading : String) : Value → Outcome
  | .null => .error (.nullReference reading)
  | v => .ok v

namespace Bound

mutual

/-- The value of a bound tree. -/
def eval (frame : Frame) : Bound → Outcome
  | .const _ v => .ok v
  | .param _ i =>
    match frame.values[i]? with
    | some v => .ok v
    | none => .error (.tooFewValues (i + 1) frame.values.length)
  | .this _ =>
    match frame.receiver with
    | some v => .ok v
    | none => .error .missingReceiver
  | .member _ none m => m.get none
  | .member _ (some target) m => do
    let receiver ← nonNull m.name (← eval frame target)
    m.get (some receiver)
  | .call _ none m args => do
    let values ← evalAll frame args
    m.invoke none values
  | .call _ (some target) m args => do
    let receiver ← nonNull m.name (← eval frame target)
    let values ← evalAll frame args
    m.invoke (some receiver) values
  | .index _ target i args => do
    let receiver ← nonNull "indexer" (← eval frame target)
    let values ← evalAll frame args
    i.get (some receiver) values
  | .convert _ conversion operand => do
    let v ← eval frame operand
    conversion.apply v
  | .negate _ operand => do
    let v ← eval frame operand
    v.negate
  | .binary _ op left right => do
    let l ← eval frame left
    let r ← eval frame right
    Value.arith op l r

/-- The values of a list of trees, from left to right. -/
def evalAll (frame : Frame) : List Bound → Except RunError (List Value)
  | [] => .ok []
  | b :: bs => do
    let v ← eval frame b
    let vs ← evalAll frame bs
    .ok (v :: vs)

end

end Bound

end Formula
