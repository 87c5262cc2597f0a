import Formula.Binder
import Formula.Proofs.Outcome
import Formula.Proofs.Refinement
import Formula.Registry.Standard

/-!
# The receiver

A bound tree says of itself whether it uses the receiver. Evaluation is strict: it comes to every
node unless it fails before. So one comparison of the runs for all receivers (`Asks`) answers both
questions: a tree that does not use the receiver has one outcome for all of them, and one that does
has no value without a receiver.

`Compiled.usesReceiver_exact`: both, for every compiled expression.
-/

namespace Formula

/-- How a computation goes for each receiver. If it does not ask for the receiver, it goes the same
way for all of them. If it does, it ends there without one, unless it has failed before, as it then
does for all of them. -/
structure Asks {α : Type} (asks : Bool) (x : Option Value → Except RunError α) : Prop where
  same : asks = false → ∀ receiver receiver', x receiver = x receiver'
  missing : asks = true → x none = .error .missingReceiver ∨ ∃ e, ∀ receiver, x receiver = .error e

namespace Asks

variable {α β : Type} {asks asks' : Bool} {x : Option Value → Except RunError α}

theorem const (y : Except RunError α) : Asks false fun _ => y :=
  ⟨fun _ _ _ => rfl, by simp⟩

/-- A failure comes before anything that might be asked. -/
theorem error (asks : Bool) (e : RunError) : Asks asks fun _ => (.error e : Except RunError α) :=
  ⟨fun _ _ _ => rfl, fun _ => .inr ⟨e, fun _ => rfl⟩⟩

/-- Of two computations in a row the first has its say first. -/
theorem bind {f : Option Value → α → Except RunError β} (h : Asks asks x)
    (hf : ∀ a, Asks asks' fun receiver => f receiver a) :
    Asks (asks || asks') fun receiver => x receiver >>= f receiver := by
  cases asks with
  | true =>
    refine ⟨by simp, fun _ => ?_⟩
    rcases h.missing rfl with hnone | ⟨e, he⟩
    · exact .inl (by simp only [hnone]; rfl)
    · exact .inr ⟨e, fun receiver => by simp only [he]; rfl⟩
  | false =>
    have hx (receiver : Option Value) : x receiver = x none := h.same rfl receiver none
    simp only [hx, Bool.false_or]
    cases x none with
    | error e => exact error asks' e
    | ok a => exact hf a

/-- What follows does not ask. -/
theorem bind_const (h : Asks asks x) (f : α → Except RunError β) :
    Asks asks fun receiver => x receiver >>= f := by
  rw [← Bool.or_false asks]
  exact h.bind fun a => const (f a)

end Asks

namespace Bound

mutual

/-- Evaluation asks for the receiver exactly if the tree says so. -/
theorem asks_eval (values : List Value) :
    ∀ b : Bound, Asks b.usesReceiver fun receiver => b.eval ⟨receiver, values⟩
  | .const .. | .param .. | .member _ none _ => by
    simp only [usesReceiver, eval]
    exact .const _
  | .this _ => by
    simp only [usesReceiver, eval]
    exact ⟨by simp, fun _ => .inl rfl⟩
  | .member _ (some target) m => by
    simp only [usesReceiver, eval]
    exact (asks_eval values target).bind_const _
  | .call _ none m args => by
    simp only [usesReceiver, eval]
    exact (asks_evalAll values args).bind_const _
  | .call _ (some target) m args => by
    simp only [usesReceiver, eval]
    exact (asks_eval values target).bind fun v => (Asks.const (nonNull m.name v)).bind fun _ =>
      (asks_evalAll values args).bind_const _
  | .index _ target i args => by
    simp only [usesReceiver, eval]
    exact (asks_eval values target).bind fun v => (Asks.const (nonNull "indexer" v)).bind fun _ =>
      (asks_evalAll values args).bind_const _
  | .convert _ _ operand | .negate _ operand => by
    simp only [usesReceiver, eval]
    exact (asks_eval values operand).bind_const _
  | .binary _ _ left right => by
    simp only [usesReceiver, eval]
    exact (asks_eval values left).bind fun _ => (asks_eval values right).bind_const _

theorem asks_evalAll (values : List Value) :
    ∀ bs : List Bound, Asks (anyUsesReceiver bs) fun receiver => evalAll ⟨receiver, values⟩ bs
  | [] => by
    simp only [anyUsesReceiver, evalAll]
    exact .const _
  | b :: bs => by
    simp only [anyUsesReceiver, evalAll]
    exact (asks_eval values b).bind fun _ => (asks_evalAll values bs).bind_const _

end

end Bound

namespace Compiled

/-- Too few values are refused before the tree is evaluated. -/
theorem asks_eval (c : Compiled) (values : List Value) :
    Asks c.root.usesReceiver fun receiver => c.eval receiver values := by
  unfold eval
  by_cases hfew : values.length < c.parameters.length
  · simp only [hfew, if_true]
    exact .error _ _
  · simp only [hfew, if_false]
    exact c.root.asks_eval values

/-- **What a tree says of the receiver is exact.** Whatever tree a compiled expression has, with or
without simplification, and whatever the values of the parameters are: if the tree does not use the
receiver, evaluation has one outcome for all receivers, `none` and null among them. If it does,
evaluation without a receiver fails, and the error is that the receiver is missing unless evaluation
fails in the same way for every receiver. -/
theorem usesReceiver_exact (c : Compiled) (values : List Value) :
    (c.root.usesReceiver = false →
        ∀ receiver receiver', c.eval receiver values = c.eval receiver' values) ∧
      (c.root.usesReceiver = true →
        ∃ e, c.eval none values = .error e ∧
          (e = .missingReceiver ∨ ∀ receiver, c.eval receiver values = .error e)) := by
  obtain ⟨hsame, hmissing⟩ := c.asks_eval values
  refine ⟨hsame, fun huses => ?_⟩
  rcases hmissing huses with hnone | ⟨e, he⟩
  · exact ⟨.missingReceiver, hnone, .inl rfl⟩
  · exact ⟨e, he none, .inr he⟩

/-- A class with a property. -/
def shapeDeclaration : Declaration :=
  .extend (.named none "Shape" []) [.property "Width" .i32 fun _ => .ok (.ofInt .i32 3)]

/-- `k * 2` does without a receiver, `k * Width` does not. -/
theorem usesReceiver_exact_shape :
    let host := ((Registry.standard []).declareAll [shapeDeclaration]).host
    let context : Context := ⟨some (.named none "Shape" []), [⟨"k", .i32⟩]⟩
    (∃ c, Binder.compile ⟨host, .standard, true⟩ context "k * 2" = .ok c ∧
      c.root.usesReceiver = false ∧
        ∀ receiver, c.eval receiver [.ofInt .i32 5] = c.eval (some .null) [.ofInt .i32 5]) ∧
      ∃ c e, Binder.compile ⟨host, .standard, false⟩ context "k * Width" = .ok c ∧
        c.root.usesReceiver = true ∧ c.eval none [.ofInt .i32 5] = .error e := by
  intro host context
  have hfree : (Binder.compile ⟨host, .standard, true⟩ context "k * 2").toOption.any
      (fun c => c.root.usesReceiver = false) = true := by
    with_unfolding_all rfl
  have huses : (Binder.compile ⟨host, .standard, false⟩ context "k * Width").toOption.any
      (fun c => c.root.usesReceiver = true) = true := by
    with_unfolding_all rfl
  obtain ⟨c, hc, hfree⟩ := Except.exists_ok hfree
  obtain ⟨c', hc', huses⟩ := Except.exists_ok huses
  obtain ⟨e, he, -⟩ := (usesReceiver_exact c' [.ofInt .i32 5]).2 huses
  exact ⟨⟨c, hc, hfree, fun receiver => (usesReceiver_exact c _).1 hfree receiver _⟩, c',
    e, hc', huses, he⟩

end Compiled

end Formula
