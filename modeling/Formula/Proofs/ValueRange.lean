import Formula.Proofs.DecimalConversion
import Formula.Proofs.Reading
import Formula.Registry.Standard

/-!
# Decimals in values

`Value.Within P` says that the decimals of a value have `P`. The range of decimals is such a `P` in
two readings: the number has few digits, or its mantissa and scale do. `RangeRules` is what they
have in common, and all that is used of them: `Decimal.rangeRules_kept`,
`Decimal.rangeRules_representable`.

All operations on values in range give values in range. Arithmetic and conversions from floats bring
their results into it. The others have reasons of their own: integers are small, and a negation, a
magnitude or a choice between two numbers leads out of no range.
-/

namespace Formula

/-! ## Decimals in values -/

namespace Value

mutual

/-- The decimals of a value, those among the items of arrays included. The fields of an object are
the host's. -/
def decimals : Value → List Decimal
  | .decimal d => [d]
  | .array ⟨_, items⟩ => decimalsAll items
  | _ => []

/-- `decimals` of each value of a list. -/
def decimalsAll : List Value → List Decimal
  | [] => []
  | v :: vs => decimals v ++ decimalsAll vs

end

/-- The decimals of a value have `P`. -/
def Within (P : Decimal → Prop) (v : Value) : Prop := ∀ d ∈ v.decimals, P d

end Value

/-- What a computation gives is within `P`. -/
def GivesWithin (P : Decimal → Prop) (o : Outcome) : Prop := ∀ v, o = .ok v → v.Within P

/-- What is used of the range of decimals. -/
structure RangeRules (P : Decimal → Prop) : Prop where
  neg {d : Decimal} : P d → P d.neg
  abs {d : Decimal} : P d → P d.abs
  ofInt {i : ℤ} : |i| < 2 ^ 64 → P (.ofInt i)
  greatest : P .greatest
  fit {d f : Decimal} : d.fit? = .ok (some f) → P f

namespace Decimal

theorem kept_greatest : greatest.Kept := by
  refine ⟨(by decide : (0 : ℤ) ≤ maxScale), ?_⟩
  rw [toRat_greatest, abs_of_nonneg]
  norm_num [limit]

theorem rangeRules_kept : RangeRules Kept where
  neg h := ⟨h.1, by rw [toRat_neg, abs_neg]; exact h.2⟩
  abs h := ⟨h.1, by rw [toRat_abs, abs_abs]; exact h.2⟩
  ofInt := kept_ofInt
  greatest := kept_greatest
  fit := kept_of_fit?

theorem Representable.neg {q : ℚ} (h : Representable q) : Representable (-q) :=
  ⟨by rw [abs_neg]; exact h.abs_le, h.places.neg⟩

theorem rangeRules_representable : RangeRules fun d => Representable d.toRat where
  neg h := by
    rw [toRat_neg]
    exact h.neg
  abs {d} h := by
    rw [toRat_abs]
    rcases abs_choice d.toRat with habs | habs <;> rw [habs]
    · exact h
    · exact h.neg
  ofInt h := (kept_ofInt h).representable
  greatest := kept_greatest.representable
  fit h := (kept_of_fit? h).representable

end Decimal

variable {P : Decimal → Prop}

namespace Value

theorem within_decimal {d : Decimal} : (Value.decimal d).Within P ↔ P d := by
  simp [Within, decimals]

/-- A value that neither is a decimal nor holds any. -/
theorem within_of_nil {v : Value} (h : v.decimals = []) : v.Within P := by
  simp [Within, h]

theorem Within.item {grid : Grid Value} (h : (Value.array grid).Within P) {v : Value}
    (hv : v ∈ grid.items) : v.Within P := by
  obtain ⟨dims, items⟩ := grid
  have hall : ∀ {vs : List Value}, (∀ d ∈ decimalsAll vs, P d) → v ∈ vs → v.Within P := by
    intro vs hvs hv
    induction vs with
    | nil => cases hv
    | cons w vs ih =>
      rw [decimalsAll, List.forall_mem_append] at hvs
      rcases List.mem_cons.mp hv with rfl | hv
      · exact hvs.1
      · exact ih hvs.2 hv
  refine hall ?_ hv
  rwa [Within, decimals] at h

theorem within_of_isLiteral (hP : RangeRules P) {v : Value} (h : v.IsLiteral) : v.Within P := by
  cases v with
  | decimal d =>
    obtain ⟨e, he⟩ := h
    exact within_decimal.mpr (hP.fit he)
  | array | object => cases h
  | _ => exact within_of_nil (by simp [decimals])

/-! ## Operations -/

theorem givesWithin_error {e : RunError} : GivesWithin P (.error e) := nofun

theorem givesWithin_ok {v : Value} (h : v.Within P) : GivesWithin P (.ok v) := by
  intro w hw
  cases hw
  exact h

/-- A result of another kind. -/
theorem givesWithin_nil {v : Value} (h : v.decimals = []) : GivesWithin P (.ok v) :=
  givesWithin_ok (within_of_nil h)

theorem givesWithin_bind {α : Type} {x : Except RunError α} {f : α → Outcome}
    (hf : ∀ a, x = .ok a → GivesWithin P (f a)) : GivesWithin P (x >>= f) := by
  intro w hw
  obtain ⟨a, ha, hw⟩ := Except.bind_ok hw
  exact hf a ha w hw

theorem givesWithin_ite {c : Prop} [Decidable c] {x y : Outcome} (hx : GivesWithin P x)
    (hy : GivesWithin P y) : GivesWithin P (if c then x else y) := by
  split
  · exact hx
  · exact hy

theorem givesWithin_intArith (op : ArithOp) (k : IntKind) (a b : ℤ) :
    GivesWithin P (intArith op k a b) := by
  cases op with
  | add | sub | mul | pow => exact givesWithin_nil (by simp [ofInt, decimals])
  | div | rem =>
    exact givesWithin_ite givesWithin_error (givesWithin_nil (by simp [ofInt, decimals]))

variable (hP : RangeRules P)

include hP

theorem givesWithin_fitted (d : Decimal) : GivesWithin P (fitted Decimal.arithmetic d) := by
  unfold fitted
  split
  · exact givesWithin_error
  · rename_i f hf
    exact givesWithin_ok (within_decimal.mpr (hP.fit hf))
  · exact givesWithin_error

theorem givesWithin_decimalArith (op : ArithOp) (a b : Decimal) :
    GivesWithin P (decimalArith Decimal.arithmetic op a b) := by
  cases op with
  | add | sub | mul => exact givesWithin_fitted hP _
  | div | rem => exact givesWithin_ite givesWithin_error (givesWithin_fitted hP _)
  | pow => exact givesWithin_nil (by simp [decimals])

theorem givesWithin_arith (op : ArithOp) (l r : Value) : GivesWithin P (Value.arith op l r) := by
  unfold arith
  split
  · exact givesWithin_ite (givesWithin_intArith _ _ _ _) givesWithin_error
  · exact givesWithin_nil (by simp [decimals])
  · exact givesWithin_nil (by simp [decimals])
  · exact givesWithin_decimalArith hP _ _ _
  · exact givesWithin_error

variable {v : Value} (hv : v.Within P)

include hv

theorem givesWithin_negate : GivesWithin P v.negate := by
  cases v with
  | decimal d => exact givesWithin_ok (within_decimal.mpr (hP.neg (within_decimal.mp hv)))
  | int k x => exact givesWithin_ite (givesWithin_nil (by simp [ofInt, decimals])) givesWithin_error
  | f32 | f64 => exact givesWithin_nil (by simp [decimals])
  | _ => exact givesWithin_error

theorem givesWithin_abs : GivesWithin P v.abs := by
  cases v with
  | decimal d => exact givesWithin_ok (within_decimal.mpr (hP.abs (within_decimal.mp hv)))
  | int k x => exact givesWithin_ite (givesWithin_nil (by simp [ofInt, decimals])) givesWithin_error
  | f32 | f64 => exact givesWithin_nil (by simp [decimals])
  | _ => exact givesWithin_error

/-- Integers become decimals as they are, and decimals stay so; only floats are brought into
range. -/
theorem givesWithin_toDecimal {n : Number} (hn : v.number? = some n) :
    GivesWithin P (n.toDecimal.map .decimal) := by
  intro w hw
  obtain ⟨d, hd, rfl⟩ := Except.map_ok hw
  rw [within_decimal]
  cases v with
  | int k x =>
    cases hn
    cases hd
    have := k.toInt_bounds x
    exact hP.ofInt (abs_lt.mpr (by omega))
  | decimal d' =>
    cases hn
    cases hd
    exact within_decimal.mp hv
  | f32 x | f64 x =>
    cases hn
    simp only [Number.toDecimal] at hd
    split at hd
    · cases hd
    · split at hd
      · cases hd
      · rename_i hfit
        cases hd
        exact hP.fit hfit
      · cases hd
  | _ => cases hn

theorem givesWithin_convert (kind : Kind) : GivesWithin P (v.convert kind) := by
  cases hn : v.number? with
  | none =>
    unfold convert
    rw [hn]
    exact givesWithin_error
  | some n =>
    rw [convert_of_number? hn]
    cases kind with
    | f32 | f64 => exact givesWithin_nil (by simp [decimals])
    | decimal => exact givesWithin_toDecimal hP hv hn
    | int k =>
      simp only [Number.convert]
      split
      · exact givesWithin_nil (by simp [ofInt, decimals])
      · exact givesWithin_error

omit hP in
theorem givesWithin_pick {w : Value} (hw : w.Within P) (greater : Bool) :
    GivesWithin P (Value.pick greater v w) := by
  unfold pick
  split
  · exact givesWithin_ite (givesWithin_nil (by simp [ofInt, decimals])) givesWithin_error
  · exact givesWithin_nil (by simp [decimals])
  · exact givesWithin_nil (by simp [decimals])
  · refine givesWithin_ok (within_decimal.mpr ?_)
    have hx := within_decimal.mp hv
    have hy := within_decimal.mp hw
    unfold Decimal.maximum Decimal.minimum
    split <;> split
    · exact hx
    · exact hy
    · exact hy
    · exact hx
  · exact givesWithin_error

end Value

/-! ## Functions that every host starts with -/

/-- An item whose function keeps the range. -/
def ClassItem.KeepsRange (P : Decimal → Prop) : ClassItem → Prop
  | .property _ _ get => ∀ v, v.Within P → GivesWithin P (get v)
  | .staticProperty _ _ get => GivesWithin P get
  | .method _ _ _ _ invoke =>
    ∀ v args, v.Within P → (∀ a ∈ args, a.Within P) → GivesWithin P (invoke v args)
  | .staticMethod _ _ _ _ invoke => ∀ args, (∀ a ∈ args, a.Within P) → GivesWithin P (invoke args)
  | .indexer _ _ get =>
    ∀ v args, v.Within P → (∀ a ∈ args, a.Within P) → GivesWithin P (get v args)

/-- A declaration of functions that keep the range. -/
def Declaration.KeepsRange (P : Decimal → Prop) : Declaration → Prop
  | .extend _ items => ∀ item ∈ items, item.KeepsRange P
  | .conversion .. => False

open Value

theorem argument_within {args : List Value} (h : ∀ a ∈ args, a.Within P) {i : ℕ} {v : Value}
    (hv : argument args i = .ok v) : v.Within P := by
  unfold argument at hv
  split at hv
  · rename_i w hw
    cases hv
    exact h _ (List.mem_of_getElem? hw)
  · cases hv

/-- A function of floats. -/
theorem givesWithin_float {α : Type} {x : Except RunError α} {f : α → Float} :
    GivesWithin P (do return .f64 (f (← x))) :=
  givesWithin_bind fun _ _ => givesWithin_nil (by simp [decimals])

theorem FloatFunction.declaration_keepsRange (f : FloatFunction) : f.declaration.KeepsRange P := by
  intro item hitem
  cases List.mem_singleton.mp hitem
  exact fun args _ => givesWithin_float

theorem unaryItem_keepsRange (name : String) (f : Float → Float) :
    (unaryItem name f).KeepsRange P :=
  fun _ _ => givesWithin_float

theorem stringDeclaration_keepsRange : stringDeclaration.KeepsRange P := by
  have htext : ∀ (run : String → Value) v, (∀ s, (run s).decimals = []) →
      GivesWithin P (withText run v) := by
    intro run v hrun
    unfold withText
    split
    · exact givesWithin_nil (hrun _)
    · exact givesWithin_error
  intro item hitem
  simp only [List.mem_cons, List.not_mem_nil, or_false] at hitem
  rcases hitem with rfl | rfl | rfl
  · exact fun v _ => htext _ v fun s => by simp [ofInt, decimals]
  · exact fun v _ _ _ => htext _ v fun s => by simp [decimals]
  · exact fun v _ _ _ => htext _ v fun s => by simp [decimals]

section

variable (hP : RangeRules P)

include hP

theorem boundsDeclaration_keepsRange (kind : Kind) : (boundsDeclaration kind).KeepsRange P := by
  have hbounds : kind.bounds.1.Within P ∧ kind.bounds.2.Within P := by
    cases kind with
    | decimal => exact ⟨within_decimal.mpr (hP.neg hP.greatest), within_decimal.mpr hP.greatest⟩
    | int | f32 | f64 =>
      exact ⟨within_of_nil (by simp [Kind.bounds, ofInt, decimals]),
        within_of_nil (by simp [Kind.bounds, ofInt, decimals])⟩
  intro item hitem
  simp only [List.mem_cons, List.not_mem_nil, or_false] at hitem
  rcases hitem with rfl | rfl
  · exact givesWithin_ok hbounds.1
  · exact givesWithin_ok hbounds.2

theorem mathDeclaration_keepsRange : mathDeclaration.KeepsRange P := by
  intro item hitem
  simp only [List.mem_append, List.mem_map, List.mem_flatMap, List.mem_cons, List.not_mem_nil,
    or_false] at hitem
  rcases hitem with (⟨kind, hk, rfl⟩ | ⟨kind, hk, hitem⟩) | hitem
  · exact fun args hargs => givesWithin_bind fun v hv =>
    givesWithin_abs hP (argument_within hargs hv)
  · have hpick : ∀ greater args, (∀ a ∈ args, a.Within P) →
        GivesWithin P (do Value.pick greater (← argument args 0) (← argument args 1)) :=
      fun greater args hargs => givesWithin_bind fun v hv => givesWithin_bind fun w hw =>
        givesWithin_pick (argument_within hargs hv) (argument_within hargs hw) greater
    simp only [pickItems, List.mem_cons, List.not_mem_nil, or_false] at hitem
    rcases hitem with rfl | rfl
    · exact hpick false
    · exact hpick true
  · rcases hitem with rfl | rfl | rfl | rfl | rfl | rfl | rfl
    · exact unaryItem_keepsRange _ _
    · exact fun args _ => givesWithin_bind fun x _ => givesWithin_float
    · exact unaryItem_keepsRange _ _
    · exact unaryItem_keepsRange _ _
    · exact unaryItem_keepsRange _ _
    · exact givesWithin_nil (by simp [decimals])
    · exact givesWithin_nil (by simp [decimals])

theorem Registry.builtins_keepsRange : ∀ d ∈ builtins, d.KeepsRange P := by
  intro d hd
  simp only [builtins, List.mem_append, List.mem_map, List.mem_cons,
    List.not_mem_nil, or_false] at hd
  rcases hd with ⟨kind, -, rfl⟩ | rfl | rfl
  · exact boundsDeclaration_keepsRange hP kind
  · exact stringDeclaration_keepsRange
  · exact mathDeclaration_keepsRange hP

end

end Formula
