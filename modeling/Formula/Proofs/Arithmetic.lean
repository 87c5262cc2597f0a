import Formula.Proofs.FloatNegation
import Formula.Proofs.Outcome
import Formula.Value

/-!
# Kinds of results, and laws of arithmetic

What the numeric operations give, whatever the numbers are.

* `Value.convert_kind`, `Value.negate_kind`, `Value.arith_kind`: the kind of a result.
* `Value.convert_error`, `Value.arith_error`: how operations on numbers of the right kinds fail.
* `Value.negate_negate`: a double negation gives the number back, for every kind that has negation.
* `Value.arith_zero`, `Value.arith_one`: the neutral operands of integers.
-/

namespace Formula

namespace IntKind

theorem wrap_toInt (k : IntKind) (x : BitVec k.width) : k.wrap (k.toInt x) = x := by
  unfold wrap toInt
  split
  · exact BitVec.ofInt_toInt
  · rw [BitVec.ofInt_natCast]
    simp

theorem wrap_neg_toInt_wrap_neg {k : IntKind} (hk : k.signed = true) (x : BitVec k.width) :
    k.wrap (-k.toInt (k.wrap (-k.toInt x))) = x := by
  simp only [wrap, toInt, hk, if_true, BitVec.ofInt_neg, BitVec.ofInt_toInt, BitVec.neg_neg]

theorem toInt_bounds (k : IntKind) (x : BitVec k.width) :
    -2 ^ 63 ≤ k.toInt x ∧ k.toInt x < 2 ^ 64 := by
  have hlow := BitVec.le_toInt x
  have hhigh := BitVec.toInt_lt (x := x)
  have hnat := x.isLt
  cases k <;> simp only [toInt, signed, width, if_true, Bool.false_eq_true, if_false] at * <;> omega

/-- A number that is seen as zero or one through 64 bits is zero or one. -/
theorem toInt_eq_of_bmod {k : IntKind} {x : BitVec k.width} {n : Int} (hn : n = 0 ∨ n = 1)
    (h : (k.toInt x).bmod (2 ^ 64) = n) : k.toInt x = n := by
  have hx := k.toInt_bounds x
  rw [Int.bmod_def] at h
  split at h <;> omega

end IntKind

namespace Value

theorem kind?_ofInt (k : IntKind) (i : Int) : (ofInt k i).kind? = some (.int k) := rfl

/-- A number of an integer kind. -/
theorem eq_int_of_kind? {v : Value} {k : IntKind} (h : v.kind? = some (.int k)) :
    ∃ x, v = .int k x := by
  cases v with
  | int k' x =>
    cases h
    exact ⟨x, rfl⟩
  | _ => cases h

private theorem number?_of_kind? {v : Value} {k : Kind} (h : v.kind? = some k) :
    ∃ n, v.number? = some n := by
  cases v with
  | int | f32 | f64 | decimal => exact ⟨_, rfl⟩
  | _ => cases h

/-! ## Conversion -/

/-- Whether the value is a float that is infinite or not a number. -/
def isNonFinite (v : Value) : Bool :=
  match v.number? with
  | some (.float x) => (Decimal.ofFloat? (Binary64.decode x)).isNone
  | _ => false

/-- The conversion of a number. -/
def Number.convert (kind : Kind) (n : Number) : Except RunError Value :=
  match kind with
  | .f32 => .ok (.f32 (Binary32.ofDouble n.toFloat))
  | .f64 => .ok (.f64 n.toFloat)
  | .decimal => n.toDecimal.map .decimal
  | .int k =>
    match n.truncate? with
    | some i => .ok (.ofInt k i)
    | none => .error (.overflow kind)

theorem convert_of_number? {v : Value} {n : Number} (h : v.number? = some n) (kind : Kind) :
    v.convert kind = n.convert kind := by
  unfold convert
  rw [h]
  rfl

theorem Number.convert_kind {kind : Kind} {n : Number} {w : Value} (h : n.convert kind = .ok w) :
    w.kind? = some kind := by
  cases kind with
  | f32 | f64 =>
    cases h
    rfl
  | decimal =>
    obtain ⟨d, -, rfl⟩ := Except.map_ok h
    rfl
  | int k =>
    simp only [convert] at h
    cases hi : n.truncate? with
    | none => simp [hi] at h
    | some i =>
      rw [hi] at h
      cases h
      rfl

/-- A conversion gives a value of the kind it converts to. -/
theorem convert_kind {kind : Kind} {v w : Value} (h : v.convert kind = .ok w) :
    w.kind? = some kind := by
  cases hn : v.number? with
  | none => simp [convert, hn] at h
  | some n => exact Number.convert_kind (convert_of_number? hn kind ▸ h)

theorem Number.toDecimal_error {n : Number} {e : RunError} (h : n.toDecimal = .error e) :
    e = .overflow .decimal ∨ (∃ trap, e = .trapped trap) ∨
      ∃ x, n = .float x ∧ Decimal.ofFloat? (Binary64.decode x) = none ∧
        e = .invalidValue "finite number" (Binary64.text x) := by
  cases n with
  | int | decimal => cases h
  | float x =>
    simp only [toDecimal] at h
    cases hx : Decimal.ofFloat? (Binary64.decode x) with
    | none =>
      rw [hx] at h
      cases h
      exact .inr (.inr ⟨x, rfl, hx, rfl⟩)
    | some d =>
      simp only [hx] at h
      split at h
      · cases h
        exact .inr (.inl ⟨_, rfl⟩)
      · cases h
      · cases h
        exact .inl rfl

/-- A conversion of a number fails for lack of range only, at digits that cannot be counted, or at a
float without a value that is converted to `decimal`. -/
theorem convert_error {kind k : Kind} {v : Value} {e : RunError} (hv : v.kind? = some k)
    (h : v.convert kind = .error e) :
    e = .overflow kind ∨ (∃ trap, e = .trapped trap) ∨
      kind = .decimal ∧ v.isNonFinite = true ∧ ∃ text, e = .invalidValue "finite number" text := by
  obtain ⟨n, hn⟩ := number?_of_kind? hv
  rw [convert_of_number? hn] at h
  cases kind with
  | f32 | f64 => cases h
  | decimal =>
    simp only [Number.convert] at h
    cases hd : n.toDecimal with
    | ok d =>
      rw [hd] at h
      cases h
    | error e' =>
      rw [hd] at h
      cases h
      rcases Number.toDecimal_error hd with rfl | htrap | ⟨x, rfl, hx, rfl⟩
      · exact .inl rfl
      · exact .inr (.inl htrap)
      · exact .inr (.inr ⟨rfl, by simp [isNonFinite, hn, hx], _, rfl⟩)
  | int k =>
    simp only [Number.convert] at h
    cases hi : n.truncate? with
    | none =>
      rw [hi] at h
      cases h
      exact .inl rfl
    | some i =>
      rw [hi] at h
      cases h

/-! ## Negation -/

theorem negate_kind {v w : Value} (h : v.negate = .ok w) : w.kind? = v.kind? := by
  cases v with
  | int k x =>
    simp only [negate] at h
    split at h
    · cases h
      rfl
    · cases h
  | f32 | f64 | decimal =>
    cases h
    rfl
  | _ => cases h

/-- A number of a signed kind has an opposite. -/
theorem negate_ok {v : Value} {k : Kind} (hv : v.kind? = some k) (hk : k.isSigned = true) :
    ∃ w, v.negate = .ok w := by
  cases v with
  | int k' x =>
    cases hv
    exact ⟨_, if_pos hk⟩
  | f32 | f64 | decimal => exact ⟨_, rfl⟩
  | _ => cases hv

/-- The opposite of the opposite is the number itself. -/
theorem negate_negate {v w : Value} (h : v.negate = .ok w) : w.negate = .ok v := by
  cases v with
  | int k x =>
    simp only [negate] at h
    split at h
    · rename_i hk
      cases h
      simp only [ofInt, negate, hk, if_true, IntKind.wrap_neg_toInt_wrap_neg hk]
    · cases h
  | f32 x =>
    cases h
    simp only [negate, FloatBits.single_neg_neg]
  | f64 x =>
    cases h
    simp only [negate, FloatBits.double_neg_neg]
  | decimal d =>
    cases h
    simp only [negate, Decimal.neg, Int.neg_neg]
  | _ => cases h

/-! ## Arithmetic -/

section

variable {ops : Decimal.Arithmetic} {d : Decimal}

private theorem fitted_kind {v : Value} (h : fitted ops d = .ok v) : v.kind? = some .decimal := by
  unfold fitted at h
  split at h <;> cases h
  rfl

private theorem fitted_error {e : RunError} (h : fitted ops d = .error e) :
    e = .overflow .decimal ∨ ∃ trap, e = .trapped trap := by
  unfold fitted at h
  split at h <;> cases h
  · exact .inr ⟨_, rfl⟩
  · exact .inl rfl

end

/-- What an operator gives for two numbers of one kind. -/
theorem arith_same_kind (op : ArithOp) {l r : Value} {k : Kind} (hl : l.kind? = some k)
    (hr : r.kind? = some k) :
    (∃ k' a b, k = .int k' ∧ arith op l r = intArith op k' a b) ∨
      (∃ a b, k = .f32 ∧ arith op l r = .ok (.f32 (singleArith op a b))) ∨
      (∃ a b, k = .f64 ∧ arith op l r = .ok (.f64 (doubleArith op a b))) ∨
      ∃ a b, k = .decimal ∧ arith op l r = decimalArith Decimal.arithmetic op a b := by
  cases l <;> cases r <;> cases hl <;> cases hr
  · rename_i k a b
    exact .inl ⟨k, k.toInt a, k.toInt b, rfl, by simp [arith]⟩
  · exact .inr (.inl ⟨_, _, rfl, rfl⟩)
  · exact .inr (.inr (.inl ⟨_, _, rfl, rfl⟩))
  · exact .inr (.inr (.inr ⟨_, _, rfl, rfl⟩))

/-- Operands of an operator are of one kind, if it has a result. -/
theorem arith_ok {op : ArithOp} {l r v : Value} (h : arith op l r = .ok v) :
    ∃ k, l.kind? = some k ∧ r.kind? = some k := by
  cases l <;> cases r <;> simp only [arith] at h <;> try cases h
  · rename_i k a k' b
    split at h
    · rename_i hk
      subst hk
      exact ⟨_, rfl, rfl⟩
    · cases h
  all_goals exact ⟨_, rfl, rfl⟩

theorem intArith_kind {op : ArithOp} {k : IntKind} {a b : Int} {v : Value} (hop : op ≠ .pow)
    (h : intArith op k a b = .ok v) : v.kind? = some (.int k) := by
  cases op <;> simp only [intArith] at h
  case pow => exact (hop rfl).elim
  case div | rem =>
    split at h <;> cases h
    rfl
  all_goals
    cases h
    rfl

theorem decimalArith_kind {ops : Decimal.Arithmetic} {op : ArithOp} {a b : Decimal} {v : Value}
    (hop : op ≠ .pow) (h : decimalArith ops op a b = .ok v) : v.kind? = some .decimal := by
  cases op <;> simp only [decimalArith] at h
  case pow => exact (hop rfl).elim
  case div | rem =>
    split at h
    · cases h
    · exact fitted_kind h
  all_goals exact fitted_kind h

/-- The result of an operator is of the kind of its operands. Powers are taken of `double` only. -/
theorem arith_kind {op : ArithOp} {l r v : Value} {k : Kind} (hl : l.kind? = some k)
    (hr : r.kind? = some k) (hpow : op = .pow → k = .f64) (h : arith op l r = .ok v) :
    v.kind? = some k := by
  rcases arith_same_kind op hl hr with
    ⟨k, a, b, rfl, he⟩ | ⟨a, b, rfl, he⟩ | ⟨a, b, rfl, he⟩ | ⟨a, b, rfl, he⟩
  · exact intArith_kind (fun hop => by cases hpow hop) (he ▸ h)
  · cases he.symm.trans h
    rfl
  · cases he.symm.trans h
    rfl
  · exact decimalArith_kind (fun hop => by cases hpow hop) (he ▸ h)

theorem intArith_error {op : ArithOp} {k : IntKind} {a b : Int} {e : RunError}
    (h : intArith op k a b = .error e) : e = .divideByZero := by
  cases op <;> simp only [intArith] at h <;> try cases h
  all_goals
    split at h <;> cases h
    rfl

theorem decimalArith_error {ops : Decimal.Arithmetic} {op : ArithOp} {a b : Decimal} {e : RunError}
    (h : decimalArith ops op a b = .error e) :
    e = .divideByZero ∨ e = .overflow .decimal ∨ ∃ trap, e = .trapped trap := by
  cases op <;> simp only [decimalArith] at h
  case pow => cases h
  case div | rem =>
    split at h
    · cases h
      exact .inl rfl
    · exact .inr (fitted_error h)
  all_goals exact .inr (fitted_error h)

/-- An operator between numbers of one kind fails at a zero divisor, for lack of range, or at digits
that cannot be counted. -/
theorem arith_error {op : ArithOp} {l r : Value} {k : Kind} {e : RunError} (hl : l.kind? = some k)
    (hr : r.kind? = some k) (h : arith op l r = .error e) :
    e = .divideByZero ∨ e = .overflow .decimal ∨ ∃ trap, e = .trapped trap := by
  rcases arith_same_kind op hl hr with
    ⟨k, a, b, rfl, he⟩ | ⟨a, b, rfl, he⟩ | ⟨a, b, rfl, he⟩ | ⟨a, b, rfl, he⟩
  · exact .inl (intArith_error (he ▸ h))
  · cases he.symm.trans h
  · cases he.symm.trans h
  · exact decimalArith_error (he ▸ h)

/-! ## Neutral operands -/

/-- An integer that is seen as zero or one through 64 bits. -/
theorem eq_int_of_toInt64? {v : Value} {k : IntKind} {n : Int} (hn : n = 0 ∨ n = 1)
    (hv : v.kind? = some (.int k)) (h : v.toInt64? = some n) :
    ∃ x, v = .int k x ∧ k.toInt x = n := by
  obtain ⟨x, rfl⟩ := eq_int_of_kind? hv
  refine ⟨x, rfl, IntKind.toInt_eq_of_bmod hn ?_⟩
  simpa [toInt64?, number?, Number.truncate?] using h

theorem ofInt_toInt (k : IntKind) (x : BitVec k.width) : ofInt k (k.toInt x) = .int k x := by
  rw [ofInt, IntKind.wrap_toInt]

/-- Zero is neutral in sums, on either side, and to the right of a minus. -/
theorem arith_zero {v z : Value} {k : IntKind} (hv : v.kind? = some (.int k))
    (hz : z.kind? = some (.int k)) (h : z.toInt64? = some 0) :
    arith .add v z = .ok v ∧ arith .add z v = .ok v ∧ arith .sub v z = .ok v := by
  obtain ⟨x, rfl⟩ := eq_int_of_kind? hv
  obtain ⟨y, rfl, hy⟩ := eq_int_of_toInt64? (.inl rfl) hz h
  simp [arith, intArith, hy, ofInt_toInt]

/-- One is neutral in products, on either side, and as a divisor. -/
theorem arith_one {v z : Value} {k : IntKind} (hv : v.kind? = some (.int k))
    (hz : z.kind? = some (.int k)) (h : z.toInt64? = some 1) :
    arith .mul v z = .ok v ∧ arith .mul z v = .ok v ∧ arith .div v z = .ok v := by
  obtain ⟨x, rfl⟩ := eq_int_of_kind? hv
  obtain ⟨y, rfl, hy⟩ := eq_int_of_toInt64? (.inr rfl) hz h
  simp [arith, intArith, hy, ofInt_toInt]

end Value

end Formula
