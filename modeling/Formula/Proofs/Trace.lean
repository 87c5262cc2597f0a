import Formula.Bound.Eval
import Formula.Proofs.Outcome

/-!
# What an evaluation does

An evaluation is a sequence of actions: each reads an input, refuses a null, runs something of the
host, or computes with numbers. `Bound.evaluate` is evaluation that also lists its actions.

* `Bound.evaluate_outcome`: apart from the list it is `Bound.eval`.
* `Bound.eval_error_iff`: an evaluation fails with the error of an action on the list, and any
  action that fails ends it.
-/

namespace Formula

/-- One thing that an evaluation does, with its operands and the type of its node. -/
inductive Action where
  | param (ty : Ty) (index : Nat)
  | this (ty : Ty)
  | nonNull (reading : String) (v : Value)
  | get (ty : Ty) (member : Member) (receiver : Option Value)
  | invoke (ty : Ty) (method : Method) (receiver : Option Value) (args : List Value)
  | index (ty : Ty) (indexer : Indexer) (receiver : Value) (args : List Value)
  | convert (ty : Ty) (conversion : Conversion) (v : Value)
  | negate (ty : Ty) (v : Value)
  | arith (ty : Ty) (op : ArithOp) (l r : Value)

/-- Carries an action out. -/
def Action.run (frame : Frame) : Action → Outcome
  | .param _ i =>
    match frame.values[i]? with
    | some v => .ok v
    | none => .error (.tooFewValues (i + 1) frame.values.length)
  | .this _ =>
    match frame.receiver with
    | some v => .ok v
    | none => .error .missingReceiver
  | .nonNull reading v => Formula.nonNull reading v
  | .get _ m receiver => m.get receiver
  | .invoke _ m receiver args => m.invoke receiver args
  | .index _ i receiver args => i.get (some receiver) args
  | .convert _ conversion v => conversion.apply v
  | .negate _ v => v.negate
  | .arith _ op l r => Value.arith op l r

/-- The actions of a computation and what came of it. -/
structure Traced (α : Type) where
  actions : List Action
  outcome : Except RunError α

namespace Traced

variable {α β : Type}

instance : Monad Traced where
  pure a := ⟨[], .ok a⟩
  bind x f :=
    match x.outcome with
    | .ok a => ⟨x.actions ++ (f a).actions, (f a).outcome⟩
    | .error e => ⟨x.actions, .error e⟩

/-- The computation of one action. -/
def act (frame : Frame) (a : Action) : Traced Value := ⟨[a], a.run frame⟩

@[simp] theorem pure_outcome (a : α) : (pure a : Traced α).outcome = .ok a := rfl

@[simp] theorem act_outcome (frame : Frame) (a : Action) :
    (act frame a).outcome = a.run frame := rfl

@[simp] theorem bind_outcome (x : Traced α) (f : α → Traced β) :
    (x >>= f).outcome = x.outcome >>= fun a => (f a).outcome := by
  simp only [bind]
  cases x.outcome <;> rfl

theorem bind_bind {γ : Type} (x : Traced α) (f : α → Traced β) (g : β → Traced γ) :
    x >>= f >>= g = x >>= fun a => f a >>= g := by
  simp only [bind]
  cases x.outcome with
  | error e => rfl
  | ok a => cases hf : (f a).outcome <;> simp [hf]

/-- The actions of a sequence are those of its parts, as far as it comes. -/
theorem mem_bind_actions {x : Traced α} {f : α → Traced β} {a : Action} :
    a ∈ (x >>= f).actions ↔
      a ∈ x.actions ∨ ∃ v, x.outcome = .ok v ∧ a ∈ (f v).actions := by
  simp only [bind]
  cases hx : x.outcome <;> simp

/-- The computation fails with the error of one of its actions, and with the error of any. -/
def Reports (frame : Frame) (x : Traced α) : Prop :=
  ∀ e, x.outcome = .error e ↔ ∃ a ∈ x.actions, a.run frame = .error e

theorem Reports.pure (frame : Frame) (a : α) : Reports frame (pure a) := by
  intro e
  constructor
  · intro h
    cases h
  · rintro ⟨a, ha, -⟩
    cases ha

theorem Reports.act (frame : Frame) (a : Action) : Reports frame (act frame a) := by
  intro e
  simp [Traced.act]

theorem Reports.bind {frame : Frame} {x : Traced α} {f : α → Traced β} (hx : Reports frame x)
    (hf : ∀ a, Reports frame (f a)) : Reports frame (x >>= f) := by
  intro e
  rw [bind_outcome]
  simp only [mem_bind_actions]
  constructor
  · intro h
    rcases Except.bind_error h with h | ⟨v, hv, h⟩
    · obtain ⟨a, ha, he⟩ := (hx e).mp h
      exact ⟨a, .inl ha, he⟩
    · obtain ⟨a, ha, he⟩ := (hf v e).mp h
      exact ⟨a, .inr ⟨v, hv, ha⟩, he⟩
  · rintro ⟨a, ha | ⟨v, hv, ha⟩, he⟩
    · rw [(hx e).mpr ⟨a, ha, he⟩]
      rfl
    · rw [hv]
      exact (hf v e).mpr ⟨a, ha, he⟩

end Traced

namespace Bound

open Traced

mutual

/-- Evaluation that lists its actions. -/
def evaluate (frame : Frame) : Bound → Traced Value
  | .const _ v => pure v
  | .param ty i => act frame (.param ty i)
  | .this ty => act frame (.this ty)
  | .member ty none m => act frame (.get ty m none)
  | .member ty (some target) m => do
    let v ← evaluate frame target
    let receiver ← act frame (.nonNull m.name v)
    act frame (.get ty m (some receiver))
  | .call ty none m args => do
    let values ← evaluateAll frame args
    act frame (.invoke ty m none values)
  | .call ty (some target) m args => do
    let v ← evaluate frame target
    let receiver ← act frame (.nonNull m.name v)
    let values ← evaluateAll frame args
    act frame (.invoke ty m (some receiver) values)
  | .index ty target i args => do
    let v ← evaluate frame target
    let receiver ← act frame (.nonNull "indexer" v)
    let values ← evaluateAll frame args
    act frame (.index ty i receiver values)
  | .convert ty conversion operand => do
    let v ← evaluate frame operand
    act frame (.convert ty conversion v)
  | .negate ty operand => do
    let v ← evaluate frame operand
    act frame (.negate ty v)
  | .binary ty op left right => do
    let l ← evaluate frame left
    let r ← evaluate frame right
    act frame (.arith ty op l r)

/-- `evaluate` on each tree of a list, from left to right. -/
def evaluateAll (frame : Frame) : List Bound → Traced (List Value)
  | [] => pure []
  | b :: bs => do
    let v ← evaluate frame b
    let vs ← evaluateAll frame bs
    pure (v :: vs)

end

attribute [simp] evaluate evaluateAll

mutual

/-- The list of actions does not change the outcome. -/
theorem evaluate_outcome (frame : Frame) : ∀ b : Bound, (b.evaluate frame).outcome = b.eval frame
  | .const _ v => by simp [eval]
  | .param .. | .this _ => by
    simp only [evaluate, eval, act_outcome]
    rfl
  | .member _ none m => by simp [eval, Action.run]
  | .member _ (some target) m => by
    simp [eval, Action.run, evaluate_outcome frame target]
  | .call _ none m args => by
    simp [eval, Action.run, evaluateAll_outcome frame args]
  | .call _ (some target) m args => by
    simp [eval, Action.run, evaluate_outcome frame target, evaluateAll_outcome frame args]
  | .index _ target i args => by
    simp [eval, Action.run, evaluate_outcome frame target, evaluateAll_outcome frame args]
  | .convert _ conversion operand => by
    simp [eval, Action.run, evaluate_outcome frame operand]
  | .negate _ operand => by
    simp [eval, Action.run, evaluate_outcome frame operand]
  | .binary _ op left right => by
    simp [eval, Action.run, evaluate_outcome frame left, evaluate_outcome frame right]

theorem evaluateAll_outcome (frame : Frame) :
    ∀ bs : List Bound, (evaluateAll frame bs).outcome = evalAll frame bs
  | [] => by simp [evalAll]
  | b :: bs => by
    simp [evalAll, evaluate_outcome frame b, evaluateAll_outcome frame bs]

end

mutual

theorem evaluate_reports (frame : Frame) : ∀ b : Bound, Reports frame (b.evaluate frame)
  | .const _ v => by
    simp only [evaluate]
    exact .pure frame v
  | .param .. | .this _ | .member _ none _ => by
    simp only [evaluate]
    exact .act frame _
  | .member _ (some target) m => by
    simp only [evaluate]
    exact (evaluate_reports frame target).bind fun _ => (Reports.act frame _).bind fun _ =>
      .act frame _
  | .call _ none m args => by
    simp only [evaluate]
    exact (evaluateAll_reports frame args).bind fun _ => .act frame _
  | .call _ (some target) _ args | .index _ target _ args => by
    simp only [evaluate]
    exact (evaluate_reports frame target).bind fun _ => (Reports.act frame _).bind fun _ =>
      (evaluateAll_reports frame args).bind fun _ => .act frame _
  | .convert _ _ operand | .negate _ operand => by
    simp only [evaluate]
    exact (evaluate_reports frame operand).bind fun _ => .act frame _
  | .binary _ _ left right => by
    simp only [evaluate]
    exact (evaluate_reports frame left).bind fun _ => (evaluate_reports frame right).bind fun _ =>
      .act frame _

theorem evaluateAll_reports (frame : Frame) :
    ∀ bs : List Bound, Reports frame (evaluateAll frame bs)
  | [] => by
    simp only [evaluateAll]
    exact .pure frame []
  | b :: bs => by
    simp only [evaluateAll]
    exact (evaluate_reports frame b).bind fun _ => (evaluateAll_reports frame bs).bind fun _ =>
      .pure frame _

end

/-- The actions of an evaluation, in the order in which they are taken. -/
def actions (frame : Frame) (b : Bound) : List Action := (b.evaluate frame).actions

/-- An evaluation fails exactly with the errors of its actions. -/
theorem eval_error_iff (frame : Frame) (b : Bound) (e : RunError) :
    b.eval frame = .error e ↔ ∃ a ∈ b.actions frame, a.run frame = .error e := by
  rw [← evaluate_outcome]
  exact evaluate_reports frame b e

end Bound

end Formula
