import Formula.Number.Decimal
import Mathlib

/-!
# The numbers that decimals stand for

`Decimal.toRat d` is the rational number of the decimal `d`. One number has many scales; what an
operation does to the scale shows in texts only, and on numbers it is the exact operation:
`Decimal.toRat_neg`, `Decimal.toRat_abs`, `Decimal.toRat_add`, `Decimal.toRat_sub`,
`Decimal.toRat_mul`, `Decimal.toRat_rem`. Quotients are not exact and have a module of their own.
-/

namespace Formula

/-- The whole number toward zero. -/
def towardZero (q : ℚ) : ℤ := if 0 ≤ q then ⌊q⌋ else ⌈q⌉

/-- The remainder of the division of `a` by `b` whose quotient is cut off toward zero. -/
def truncatedRemainder (a b : ℚ) : ℚ := a - b * towardZero (a / b)

private theorem towardZero_neg (q : ℚ) : towardZero (-q) = -towardZero q := by
  unfold towardZero
  rcases lt_trichotomy q 0 with h | rfl | h
  · rw [if_pos (by linarith), if_neg (by linarith), Int.floor_neg]
  · simp
  · rw [if_neg (by linarith), if_pos h.le, Int.ceil_neg]

/-- The quotient of integers that is cut off toward zero. -/
theorem towardZero_div (m n : ℤ) : towardZero (m / n) = m.tdiv n := by
  have hnat : ∀ x y : ℕ, towardZero ((x : ℚ) / y) = (x / y : ℕ) := fun x y => by
    rw [towardZero, if_pos (by positivity), ← Int.natCast_floor_eq_floor (by positivity),
      Nat.floor_div_eq_div]
  obtain ⟨x, rfl | rfl⟩ := m.eq_nat_or_neg <;> obtain ⟨y, rfl | rfl⟩ := n.eq_nat_or_neg
  · simpa using hnat x y
  · simpa [div_neg, towardZero_neg] using hnat x y
  · simpa [neg_div, towardZero_neg] using hnat x y
  · simpa using hnat x y

namespace Decimal

/-- The number a decimal stands for. -/
def toRat (d : Decimal) : ℚ := d.mantissa * 10 ^ (-d.scale)

variable {a b d : Decimal} {s : ℤ}

theorem int_pow_eq (b : ℤ) (n : ℕ) : Int.pow b n = b ^ n := rfl

theorem ten_zpow_pos (n : ℤ) : (0 : ℚ) < 10 ^ n := by positivity

/-! ## Scales -/

theorem toRat_mul_zpow (d : Decimal) (s : ℤ) :
    d.toRat * 10 ^ s = d.mantissa * 10 ^ (s - d.scale) := by
  rw [toRat, mul_assoc, ← zpow_add₀ (by norm_num)]
  congr 2
  omega

theorem cast_mantissaAt (h : d.scale ≤ s) : (d.mantissaAt s : ℚ) = d.toRat * 10 ^ s := by
  have hs : s - d.scale = ((s - d.scale).toNat : ℤ) := by omega
  rw [toRat_mul_zpow, hs, zpow_natCast, mantissaAt, int_pow_eq]
  push_cast
  rfl

/-- A mantissa at a scale stands for the number that it is when the scale is taken off. -/
theorem toRat_mk_of_eq {m : ℤ} {q : ℚ} (h : (m : ℚ) = q * 10 ^ s) : toRat ⟨m, s⟩ = q := by
  rw [toRat, h, mul_assoc, ← zpow_add₀ (by norm_num), add_neg_cancel, zpow_zero, mul_one]

theorem toRat_rescale (h : d.scale ≤ s) : (d.rescale s).toRat = d.toRat :=
  toRat_mk_of_eq (cast_mantissaAt h)

theorem toRat_eq_zero : d.toRat = 0 ↔ d.mantissa = 0 := by
  rw [toRat, mul_eq_zero, or_iff_left (ten_zpow_pos _).ne', Int.cast_eq_zero]

@[simp] theorem toRat_zero : zero.toRat = 0 := toRat_eq_zero.mpr rfl

@[simp] theorem toRat_ofInt (i : ℤ) : (ofInt i).toRat = i := by simp [ofInt, toRat]

/-! ## Signs and order -/

@[simp] theorem toRat_neg (d : Decimal) : d.neg.toRat = -d.toRat := by simp [neg, toRat]

@[simp] theorem toRat_abs (d : Decimal) : d.abs.toRat = |d.toRat| := by
  rw [toRat, toRat, abs_mul, abs_of_pos (ten_zpow_pos _)]
  simp [abs]

private theorem compare_eq_gt : a.compare b = .gt ↔ b.toRat < a.toRat := by
  have ha : a.scale ≤ max a.scale b.scale := le_max_left _ _
  have hb : b.scale ≤ max a.scale b.scale := le_max_right _ _
  rw [compare, compare_gt_iff_gt, ← Int.cast_lt (R := ℚ), cast_mantissaAt ha,
    cast_mantissaAt hb, mul_lt_mul_iff_left₀ (ten_zpow_pos _)]

/-- The magnitude of the greatest decimal. -/
def limit : ℚ := 2 ^ 96 - 1

theorem toRat_greatest : greatest.toRat = limit := by
  rw [greatest, toRat_ofInt, int_pow_eq, limit]
  norm_num

theorem inRange_iff : d.inRange = true ↔ |d.toRat| ≤ limit := by
  rw [inRange, bne_iff_ne, Ne, compare_eq_gt, toRat_greatest, toRat_abs, not_lt]

/-! ## Exact operations -/

theorem toRat_addZero (d : Decimal) (scale : ℤ) : (d.addZero scale).toRat = d.toRat :=
  toRat_rescale (by omega)

theorem toRat_add (a b : Decimal) : (a.add b).toRat = a.toRat + b.toRat := by
  unfold add
  split
  · rename_i hb
    rw [toRat_addZero, toRat_eq_zero.mpr hb, add_zero]
  · split
    · rename_i ha
      rw [toRat_addZero, toRat_eq_zero.mpr ha, zero_add]
    · refine toRat_mk_of_eq ?_
      rw [Int.cast_add, cast_mantissaAt (le_max_left _ _),
        cast_mantissaAt (le_max_right _ _), add_mul]

theorem toRat_sub (a b : Decimal) : (a.sub b).toRat = a.toRat - b.toRat := by
  refine toRat_mk_of_eq ?_
  rw [Int.cast_sub, cast_mantissaAt (le_max_left _ _), cast_mantissaAt (le_max_right _ _), sub_mul]

private theorem stripZeros_eq (n : ℕ) : (stripZeros n).1 * 10 ^ (stripZeros n).2 = n := by
  fun_induction stripZeros n with
  | case1 n h m zeros hstrip ih =>
    rw [hstrip] at ih
    rw [pow_succ, ← mul_assoc, ih]
    omega
  | case2 n h => simp

theorem toRat_normalize (d : Decimal) : d.normalize.toRat = d.toRat := by
  unfold normalize
  split
  · rename_i h
    rw [toRat_zero, toRat_eq_zero.mpr h]
  · have hstrip := stripZeros_eq d.mantissa.natAbs
    generalize stripZeros d.mantissa.natAbs = p at hstrip
    obtain ⟨m, zeros⟩ := p
    have hm : (d.mantissa : ℚ) = d.mantissa.sign * m * 10 ^ (zeros : ℤ) := by
      have hm : d.mantissa = d.mantissa.sign * (m * 10 ^ zeros : ℕ) := by
        rw [hstrip, Int.sign_mul_natAbs]
      rw [zpow_natCast, mul_assoc]
      exact_mod_cast hm
    refine toRat_mk_of_eq ?_
    rw [toRat_mul_zpow, hm, mul_assoc, ← zpow_add₀ (by norm_num)]
    simp

theorem toRat_of_isOne (h : d.isOne = true) : d.toRat = 1 := by
  simp only [isOne, Bool.and_eq_true, decide_eq_true_eq] at h
  obtain ⟨⟨hscale, -⟩, hm⟩ := h
  rw [toRat, hm, int_pow_eq, Int.cast_pow, ← zpow_natCast, Int.toNat_of_nonneg hscale,
    Int.cast_ofNat, ← zpow_add₀ (by norm_num), add_neg_cancel, zpow_zero]

theorem toRat_mul (a b : Decimal) : (a.mul b).toRat = a.toRat * b.toRat := by
  unfold mul
  split
  · rename_i ha
    rw [toRat_normalize, toRat_of_isOne ha, one_mul]
  · split
    · rename_i hb
      rw [toRat_normalize, toRat_of_isOne hb, mul_one]
    · refine toRat_mk_of_eq ?_
      rw [zpow_add₀ (by norm_num), mul_mul_mul_comm, toRat_mul_zpow, toRat_mul_zpow]
      simp

theorem toRat_rem (a b : Decimal) : (a.rem b).toRat = truncatedRemainder a.toRat b.toRat := by
  have ha := cast_mantissaAt (le_max_left a.scale b.scale)
  have hb := cast_mantissaAt (le_max_right a.scale b.scale)
  have hquotient : a.toRat / b.toRat =
      a.mantissaAt (max a.scale b.scale) / b.mantissaAt (max a.scale b.scale) := by
    rw [ha, hb, mul_div_mul_right _ _ (ten_zpow_pos _).ne']
  refine toRat_mk_of_eq ?_
  rw [truncatedRemainder, hquotient, towardZero_div, Int.tmod_def, Int.cast_sub,
    Int.cast_mul, ha, hb]
  ring

end Decimal

end Formula
