import Formula.Context
import Formula.Proofs.Lookup
import Formula.Proofs.Simplification
import Formula.Proofs.Typing

/-!
# Typed trees

A tree is typed by what its nodes do: each gives a value of its type wherever its operands are
values of theirs, or an error that is expected of it (`Bound.Typed`).

* `Bound.Typed.evaluate_sound`: with inputs of the right types, a typed tree gives a value of its
  type, and all its errors are expected.
* `Bound.Typed.simplify`: a simplified tree is typed.
* `Bound.numeric_typed`, `Bound.negate_typed`, `Bound.binary_typed`: conversions and operators
  between numbers of the right kinds are.
-/

namespace Formula

/-! ## Errors and where they come from -/

namespace Action

/-- The action runs a function that the declarations `ds` gave. -/
def Foreign (ds : List Declaration) : Action → Prop
  | .get _ m _ => ∃ owner item found,
      Declared ds owner item ∧ item.member? = some found ∧ found.get = m.get
  | .invoke _ m _ _ => ∃ owner item found,
      Declared ds owner item ∧ item.method? owner = some found ∧ found.method.invoke = m.invoke
  | .index _ i _ _ => ∃ owner item found,
      Declared ds owner item ∧ item.indexer? owner = some found ∧ found.get = i.get
  | .convert _ (.custom run) _ => ∃ source target, .conversion source target run ∈ ds
  | _ => False

/-- Whether the action converts a float that is infinite or not a number to `decimal`. -/
def convertsNonFinite : Action → Bool
  | .convert _ (.numeric .decimal) v => v.isNonFinite
  | _ => false

/-- The errors that are expected of an action: all errors of a declared function; of all others none
that complains about the number or the types of values, except where a float without a value is
converted to `decimal`. -/
def MayReport (ds : List Declaration) (a : Action) (e : RunError) : Prop :=
  a.Foreign ds ∨ e.isClean = true ∨
    a.convertsNonFinite = true ∧ ∃ found, e = .invalidValue "finite number" found

end Action

section

variable (I : Ty → Value → Prop) (ds : List Declaration)

/-- The action gives a value of the type, or an error that is expected of it. -/
def Action.Typed (ty : Ty) (a : Action) : Prop :=
  ∀ frame, Gives I (a.MayReport ds) ty (a.run frame)

variable (context : Context)

mutual

/-- Every node of the tree gives values of its type, if its operands are values of theirs. -/
def Bound.Typed : Bound → Prop
  | .const ty v => Inhabits I ty v
  | .param ty i => ∃ p, context.parameters[i]? = some p ∧ p.ty = ty
  | .this ty => context.base = some ty
  | .member ty none m => (Action.get ty m none).Typed I ds ty
  | .member ty (some target) m =>
    target.Typed ∧ ∀ v, v ≠ .null → Inhabits I target.ty v →
      (Action.get ty m (some v)).Typed I ds ty
  | .call ty none m args =>
    Bound.TypedAll args ∧ ∀ vs, List.Forall₂ (Inhabits I) (args.map Bound.ty) vs →
      (Action.invoke ty m none vs).Typed I ds ty
  | .call ty (some target) m args =>
    target.Typed ∧ Bound.TypedAll args ∧ ∀ v, v ≠ .null → Inhabits I target.ty v →
      ∀ vs, List.Forall₂ (Inhabits I) (args.map Bound.ty) vs →
        (Action.invoke ty m (some v) vs).Typed I ds ty
  | .index ty target i args =>
    target.Typed ∧ Bound.TypedAll args ∧ ∀ v, v ≠ .null → Inhabits I target.ty v →
      ∀ vs, List.Forall₂ (Inhabits I) (args.map Bound.ty) vs →
        (Action.index ty i v vs).Typed I ds ty
  | .convert ty c b => b.Typed ∧ ∀ v, Inhabits I b.ty v → (Action.convert ty c v).Typed I ds ty
  | .negate ty b => b.Typed ∧ ∀ v, Inhabits I b.ty v → (Action.negate ty v).Typed I ds ty
  | .binary ty op l r =>
    l.Typed ∧ r.Typed ∧ ∀ a b, Inhabits I l.ty a → Inhabits I r.ty b →
      (Action.arith ty op a b).Typed I ds ty

/-- `Typed` of each tree of a list. -/
def Bound.TypedAll : List Bound → Prop
  | [] => True
  | b :: bs => b.Typed ∧ Bound.TypedAll bs

end

end

/-! ## Evaluation -/

/-- The inputs are values of the types of the context, and there are enough of them. -/
structure Frame.Conforms (I : Ty → Value → Prop) (context : Context) (frame : Frame) : Prop where
  receiver : ∀ ty v, context.base = some ty → frame.receiver = some v → Inhabits I ty v
  values : ∀ (i : Nat) p v, context.parameters[i]? = some p → frame.values[i]? = some v →
    Inhabits I p.ty v
  enough : context.parameters.length ≤ frame.values.length

variable {I : Ty → Value → Prop} {ds : List Declaration} {context : Context} {frame : Frame}

/-- What an action gives in every frame is of its type. -/
theorem Action.Typed.ok {ty : Ty} {a : Action} (h : a.Typed I ds ty) {v : Value}
    (hv : ∀ frame, a.run frame = .ok v) : Inhabits I ty v := by
  have h := h ⟨none, []⟩
  rw [hv] at h
  exact h

namespace Traced

variable {α β : Type} {P : α → Prop} {Q : β → Prop}

/-- The result satisfies `P`, and all errors of the actions are expected. -/
def Sound (ds : List Declaration) (frame : Frame) (P : α → Prop) (x : Traced α) : Prop :=
  (∀ v, x.outcome = .ok v → P v) ∧
    ∀ a ∈ x.actions, ∀ e, a.run frame = .error e → a.MayReport ds e

theorem Sound.pure {a : α} (h : P a) : Sound ds frame P (pure a) := by
  refine ⟨fun v hv => ?_, fun a ha => ?_⟩
  · cases hv
    exact h
  · cases ha

theorem Sound.bind {x : Traced α} {f : α → Traced β} (hx : Sound ds frame P x)
    (hf : ∀ v, P v → Sound ds frame Q (f v)) : Sound ds frame Q (x >>= f) := by
  refine ⟨fun w hw => ?_, fun a ha e he => ?_⟩
  · rw [bind_outcome] at hw
    obtain ⟨v, hv, hw⟩ := Except.bind_ok hw
    exact (hf v (hx.1 v hv)).1 w hw
  · rcases mem_bind_actions.mp ha with ha | ⟨v, hv, ha⟩
    · exact hx.2 a ha e he
    · exact (hf v (hx.1 v hv)).2 a ha e he

theorem Sound.act {a : Action} {ty : Ty} (h : Gives I (a.MayReport ds) ty (a.run frame)) :
    Sound ds frame (Inhabits I ty) (act frame a) := by
  refine ⟨fun v hv => ?_, fun a' ha e he => ?_⟩
  · rw [act_outcome] at hv
    rw [hv] at h
    exact h
  · cases List.mem_singleton.mp ha
    rw [he] at h
    exact h

/-- A target that is not null. -/
theorem Sound.nonNull (reading : String) (v : Value) :
    Sound ds frame (fun w => w = v ∧ v ≠ .null) (Traced.act frame (.nonNull reading v)) := by
  refine ⟨fun w hw => ?_, fun a ha e he => ?_⟩
  · cases v <;> cases hw <;> simp
  · cases List.mem_singleton.mp ha
    cases v <;> cases he
    exact .inr (.inl rfl)

end Traced

namespace Bound

open Traced

theorem param_gives (hf : frame.Conforms I context) {ty : Ty} {i : Nat}
    (h : (Bound.param ty i).Typed I ds context) {fine : RunError → Prop} :
    Gives I fine ty ((Action.param ty i).run frame) := by
  obtain ⟨p, hp, rfl⟩ := h
  have hi := (List.getElem?_eq_some_iff.mp hp).1
  have hlen := hf.enough
  have hv := List.getElem?_eq_getElem (l := frame.values) (i := i) (by omega)
  simp only [Action.run, hv]
  exact hf.values i p _ hp hv

theorem this_gives (hf : frame.Conforms I context) {ty : Ty}
    (h : (Bound.this ty).Typed I ds context) {fine : RunError → Prop}
    (hfine : ∀ e : RunError, e.isClean = true → fine e) :
    Gives I fine ty ((Action.this ty).run frame) := by
  simp only [Action.run]
  cases hr : frame.receiver with
  | none => exact hfine _ rfl
  | some v => exact hf.receiver ty v h hr

mutual

/-- A typed tree gives a value of its type, and all errors on the way are expected. -/
theorem Typed.evaluate_sound (hf : frame.Conforms I context) : ∀ {b : Bound},
    b.Typed I ds context → Sound ds frame (Inhabits I b.ty) (b.evaluate frame)
  | .const ty v, h => by
    simp only [evaluate]
    exact .pure h
  | .param ty i, h => by
    simp only [evaluate]
    exact .act (param_gives hf h)
  | .this ty, h => by
    simp only [evaluate]
    exact .act (this_gives hf h fun e he => .inr (.inl he))
  | .member ty none m, h => by
    simp only [evaluate]
    exact .act (h frame)
  | .member ty (some target) m, h => by
    simp only [evaluate]
    refine (Typed.evaluate_sound hf h.1).bind fun v hv => (Sound.nonNull _ v).bind ?_
    rintro _ ⟨rfl, hnull⟩
    exact .act (h.2 _ hnull hv frame)
  | .call ty none m args, h => by
    simp only [evaluate]
    exact (TypedAll.evaluateAll_sound hf h.1).bind fun vs hvs => .act (h.2 vs hvs frame)
  | .call ty (some target) m args, h => by
    simp only [evaluate]
    refine (Typed.evaluate_sound hf h.1).bind fun v hv => (Sound.nonNull _ v).bind ?_
    rintro _ ⟨rfl, hnull⟩
    exact (TypedAll.evaluateAll_sound hf h.2.1).bind fun vs hvs =>
      .act (h.2.2 _ hnull hv vs hvs frame)
  | .index ty target i args, h => by
    simp only [evaluate]
    refine (Typed.evaluate_sound hf h.1).bind fun v hv => (Sound.nonNull _ v).bind ?_
    rintro _ ⟨rfl, hnull⟩
    exact (TypedAll.evaluateAll_sound hf h.2.1).bind fun vs hvs =>
      .act (h.2.2 _ hnull hv vs hvs frame)
  | .convert ty c b, h => by
    simp only [evaluate]
    exact (Typed.evaluate_sound hf h.1).bind fun v hv => .act (h.2 v hv frame)
  | .negate ty b, h => by
    simp only [evaluate]
    exact (Typed.evaluate_sound hf h.1).bind fun v hv => .act (h.2 v hv frame)
  | .binary ty op l r, h => by
    simp only [evaluate]
    exact (Typed.evaluate_sound hf h.1).bind fun a ha =>
      (Typed.evaluate_sound hf h.2.1).bind fun b hb => .act (h.2.2 a b ha hb frame)

theorem TypedAll.evaluateAll_sound (hf : frame.Conforms I context) : ∀ {bs : List Bound},
    TypedAll I ds context bs →
      Sound ds frame (List.Forall₂ (Inhabits I) (bs.map Bound.ty)) (evaluateAll frame bs)
  | [], _ => by
    simp only [evaluateAll]
    exact .pure .nil
  | b :: bs, h => by
    simp only [evaluateAll]
    exact (Typed.evaluate_sound hf h.1).bind fun v hv =>
      (TypedAll.evaluateAll_sound hf h.2).bind fun vs hvs => .pure (.cons hv hvs)

end

/-! ## Operators -/

theorem numeric_typed {ty : Ty} {source : Kind} (target : Kind) {v : Value}
    (hv : v.kind? = some source) :
    (Action.convert ty (.numeric target) v).Typed I ds (.numeric target) := by
  intro frame
  change Gives I _ _ (v.convert target)
  cases h : v.convert target with
  | ok w => exact Value.convert_kind h
  | error e =>
    rcases Value.convert_error hv h with rfl | ⟨trap, rfl⟩ | ⟨rfl, hfinite, text, rfl⟩
    · exact .inr (.inl rfl)
    · exact .inr (.inl rfl)
    · exact .inr (.inr ⟨hfinite, text, rfl⟩)

theorem negate_typed {ty : Ty} {kind : Kind} (hk : kind.isSigned = true) {v : Value}
    (hv : v.kind? = some kind) : (Action.negate ty v).Typed I ds (.numeric kind) := by
  intro frame
  obtain ⟨w, hw⟩ := Value.negate_ok hv hk
  change Gives I _ _ v.negate
  rw [hw]
  exact (Value.negate_kind hw).trans hv

theorem binary_typed {ty : Ty} {op : ArithOp} {kind : Kind} (hpow : op = .pow → kind = .f64)
    {a b : Value} (ha : a.kind? = some kind) (hb : b.kind? = some kind) :
    (Action.arith ty op a b).Typed I ds (.numeric kind) := by
  intro frame
  change Gives I _ _ (Value.arith op a b)
  cases h : Value.arith op a b with
  | ok w => exact Value.arith_kind ha hb hpow h
  | error e =>
    rcases Value.arith_error ha hb h with rfl | rfl | ⟨trap, rfl⟩ <;> exact .inr (.inl rfl)

/-! ## Simplification -/

theorem simplifyConvert_typed {ty : Ty} {c : Conversion} {b : Bound}
    (h : (Bound.convert ty c b).Typed I ds context) :
    (simplifyConvert ty c b).Typed I ds context := by
  unfold simplifyConvert
  cases hb : b.const?.bind (convertConst? c) with
  | none => exact h
  | some v =>
    obtain ⟨w, hw, hv⟩ := Option.bind_eq_some_iff.mp hb
    obtain ⟨ty', rfl⟩ := const?_eq_some hw
    exact Action.Typed.ok (h.2 w h.1) fun _ => convertConst?_eq_some hv

theorem simplifyNegate_typed {ty : Ty} {b : Bound} (h : (Bound.negate ty b).Typed I ds context) :
    (simplifyNegate ty b).Typed I ds context := by
  unfold simplifyNegate
  cases hb : b.const?.bind fun v => v.negate.toOption with
  | some v =>
    obtain ⟨w, hw, hv⟩ := Option.bind_eq_some_iff.mp hb
    obtain ⟨ty', rfl⟩ := const?_eq_some hw
    exact Action.Typed.ok (h.2 w h.1) fun _ => Except.toOption_eq_some hv
  | none =>
    cases b with
    | negate ty' x =>
      simp only
      split
      · exact h.1.1
      · exact h
    | _ => exact h

theorem simplifyBinary_typed {ty : Ty} {op : ArithOp} {l r : Bound}
    (h : (Bound.binary ty op l r).Typed I ds context) :
    (simplifyBinary ty op l r).Typed I ds context := by
  unfold simplifyBinary
  cases hlr : l.const?.bind fun a => r.const?.bind fun b => (Value.arith op a b).toOption with
  | some v =>
    obtain ⟨a, ha, hr⟩ := Option.bind_eq_some_iff.mp hlr
    obtain ⟨b, hb, hv⟩ := Option.bind_eq_some_iff.mp hr
    obtain ⟨_, rfl⟩ := const?_eq_some ha
    obtain ⟨_, rfl⟩ := const?_eq_some hb
    exact Action.Typed.ok (h.2.2 a b h.1 h.2.1) fun _ => Except.toOption_eq_some hv
  | none =>
    cases hn : neutral? op l r with
    | none => exact h
    | some x =>
      obtain ⟨k, -, ⟨rfl, -⟩ | ⟨rfl, -⟩⟩ := neutral?_eq_some hn
      · exact h.1
      · exact h.2.1

/-- Simplification keeps trees typed. -/
theorem Typed.simplify : ∀ {b : Bound}, b.Typed I ds context → b.Kinded →
    b.simplify.Typed I ds context
  | .convert ty c b, h, hk => by
    have hty := (simplify_refines hk.operand).1.ty_eq
    simp only [Bound.simplify]
    refine simplifyConvert_typed ⟨h.1.simplify hk.operand, ?_⟩
    rw [hty]
    exact h.2
  | .negate ty b, h, hk => by
    have hty := (simplify_refines hk.1).1.ty_eq
    simp only [Bound.simplify]
    refine simplifyNegate_typed ⟨h.1.simplify hk.1, ?_⟩
    rw [hty]
    exact h.2
  | .binary ty op l r, h, hk => by
    have hl := (simplify_refines hk.1).1.ty_eq
    have hr := (simplify_refines hk.2.1).1.ty_eq
    simp only [Bound.simplify]
    refine simplifyBinary_typed ⟨h.1.simplify hk.1, h.2.1.simplify hk.2.1, ?_⟩
    rw [hl, hr]
    exact h.2.2
  | .const .., h, _ | .param .., h, _ | .this _, h, _ | .member .., h, _ | .call .., h, _
  | .index .., h, _ => by
    simp only [Bound.simplify]
    exact h

end Bound

end Formula
