import Formula.Proofs.Comparison
import Formula.Proofs.Lookup
import Formula.Proofs.Prepared
import Formula.Proofs.Simplification
import Formula.Registry

/-!
# Binding with and without simplification

A binder that simplifies does so at the end of every block, while the blocks around it are still
being bound. All the same its outcome stands in for the outcome of a binder that does not:

* `Binder.simplify_agrees`: what binds without simplification binds with it, to a tree that refines
  the plain one; and a plain failure other than for depth is the failure with simplification, too.
-/

namespace Formula

/-- The outcome `y` stands in for the outcome `x`: results compare, and errors are the same, unless
the tree of `x` was too deep. -/
def StandsIn {α β : Type} (R : α → β → Prop) (x : Except BuildError α) (y : Except BuildError β) :
    Prop :=
  match x with
  | .ok a => ∃ b, y = .ok b ∧ R a b
  | .error e => (∃ limit, e = .limitExceeded .treeDepth limit) ∨ y = .error e

theorem StandsIn.bind {α β γ δ : Type} {R : α → β → Prop} {R' : γ → δ → Prop}
    {x : Except BuildError α} {y : Except BuildError β} {f : α → Except BuildError γ}
    {g : β → Except BuildError δ} (h : StandsIn R x y)
    (hf : ∀ a b, R a b → StandsIn R' (f a) (g b)) :
    StandsIn R' (x >>= f) (y >>= g) := by
  cases x with
  | error e =>
    rcases h with h | rfl
    · exact .inl h
    · exact .inr rfl
  | ok a =>
    obtain ⟨b, rfl, hab⟩ := h
    exact hf a b hab

theorem StandsIn.map {α β γ δ : Type} {R : α → β → Prop} {R' : γ → δ → Prop}
    {x : Except BuildError α} {y : Except BuildError β} {f : α → γ} {g : β → δ}
    (h : StandsIn R x y) (hf : ∀ a b, R a b → R' (f a) (g b)) :
    StandsIn R' (x.map f) (y.map g) := by
  cases x with
  | error e =>
    rcases h with h | rfl
    · exact .inl h
    · exact .inr rfl
  | ok a =>
    obtain ⟨b, rfl, hab⟩ := h
    exact ⟨g b, rfl, hf a b hab⟩

/-- A conversion that a registry finds is of the kind its type names. -/
theorem Registry.implicitConversion_kinded {r : Registry} {b : Bound} {source ty : Ty}
    {c : Conversion} (h : r.implicitConversion source ty = some c) (hne : source ≠ ty)
    (hb : b.Kinded) : (Bound.convert ty c b).Kinded := by
  rcases implicitConversion_cases h hne with ⟨rfl, rfl⟩ | ⟨_, kind, -, rfl, rfl⟩ | ⟨run, -, rfl⟩
  · exact ⟨hb, fun kind hkind => by cases hkind⟩
  · exact ⟨hb, rfl⟩
  · exact hb

theorem literalType_kinded (v : Value) : (Bound.const (literalType v) v).Kinded := by
  intro kind h
  cases v <;> simp_all [literalType, Value.kind?]

/-- Binding without simplification compared with binding with it. -/
def Registry.simplifyComparison (r : Registry) (context : Context) (maxDepth : Nat) :
    Comparison (Except BuildError) (Except BuildError) ⟨r.host, context, maxDepth, false⟩
      ⟨r.host, context, maxDepth, true⟩ where
  alike := ⟨rfl, rfl⟩
  rel p o := p.Refines o ∧ o.Kinded
  holds _ := StandsIn
  holds_pure h := ⟨_, rfl, h⟩
  holds_throw _ := .inr rfl
  holds_bind h hf _ := h.bind hf
  holds_keep h _ := h
  holds_mono _ h := h
  bounded := by
    rintro p o ⟨h, hk⟩
    by_cases hp : maxDepth < p.depth
    · rw [BindEnv.bounded_of_lt _ hp]
      exact .inl ⟨_, rfl⟩
    · rw [Nat.not_lt] at hp
      rw [BindEnv.bounded_of_le _ hp, BindEnv.bounded_of_le _ (Nat.le_trans h.depth_le hp)]
      exact ⟨o, rfl, h, hk⟩
  finish := by
    rintro p o ⟨h, hk⟩
    obtain ⟨hsimplify, hk⟩ := Bound.simplify_refines hk
    exact ⟨h.trans hsimplify, hk⟩
  ty_eq h := h.1.ty_eq.symm
  const v _ := ⟨.refl _, literalType_kinded v⟩
  param _ := Context.parameter?_rel fun _ _ _ => ⟨.refl _, trivial⟩
  this _ := ⟨.refl _, trivial⟩
  staticMember _ _ := ⟨.refl _, trivial⟩
  member h _ _ := ⟨h.1.member _ _, trivial⟩
  staticCall _ _ ha _ := ⟨.staticCall (ha.imp fun _ _ h => h.1) _ _, trivial⟩
  call h _ _ ha _ := ⟨h.1.call (ha.imp fun _ _ h => h.1) _ _, trivial⟩
  index h _ ha _ := ⟨h.1.index (ha.imp fun _ _ h => h.1) _ _, trivial⟩
  implicit h hne hc := ⟨h.1.convert _ _, Registry.implicitConversion_kinded hc hne h.2⟩
  numeric h _ := ⟨h.1.convert _ _, h.2, rfl⟩
  negate h hty hsigned := ⟨h.1.negate _, h.2, _, rfl, h.1.ty_eq.trans hty, hsigned⟩
  binary h h' hl hr hpow :=
    ⟨h.1.binary h'.1 _ _, h.2, h'.2, _, rfl, h.1.ty_eq.trans hl, h'.1.ty_eq.trans hr, hpow⟩

/-- A compiled expression that can be used in place of another. -/
structure Compiled.StandsFor (plain simplified : Compiled) : Prop where
  parameters_eq : simplified.parameters = plain.parameters
  base_eq : simplified.base = plain.base
  ty_eq : simplified.root.ty = plain.root.ty
  usesReceiver_eq : simplified.root.usesReceiver = plain.root.usesReceiver
  depth_le : simplified.root.depth ≤ plain.root.depth
  /-- Every value is kept. -/
  eval_ok : ∀ frame v, plain.root.eval frame = .ok v → simplified.root.eval frame = .ok v
  /-- Errors are kept, too, where inputs and results of the host are of the promised kinds. -/
  eval_eq : ∀ frame, plain.root.Faithful frame →
    simplified.root.eval frame = plain.root.eval frame

namespace Binder

/-- **Simplification is transparent**: whatever has been declared, whatever the limits, the contexts
and the text are, a binder that simplifies gives an expression that can be used in place of the
plain one, and fails as the plain one fails unless that was for the depth of its tree. -/
theorem simplify_agrees (r : Registry) (limits : Limits) (context context' : Context)
    (source : String) :
    StandsIn Compiled.StandsFor
      (firstBinding ⟨r.host, limits, false⟩ context context' source)
      (firstBinding ⟨r.host, limits, true⟩ context context' source) := by
  have hprepare : Binder.prepare ⟨r.host, limits, true⟩ context source =
      Binder.prepare ⟨r.host, limits, false⟩ context source := rfl
  unfold firstBinding
  rw [hprepare]
  cases hp : Binder.prepare ⟨r.host, limits, false⟩ context source with
  | error e => exact .inr rfl
  | ok p =>
    have hnodup := (prepare_numbered hp).1.1
    have h := (r.simplifyComparison context' limits.treeDepth).task p.root hnodup
    change StandsIn _ (Binder.bind _ context' p).1 (Binder.bind _ context' p).1
    rw [bind_eq_meaning hp, bind_eq_meaning hp]
    exact StandsIn.map h fun _ _ hab => ⟨rfl, rfl, hab.1.ty_eq, hab.1.usesReceiver_eq,
      hab.1.depth_le, fun _ _ => hab.1.eval_ok, fun _ => hab.1.eval_eq⟩

end Binder

end Formula
