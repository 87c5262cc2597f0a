import Formula.Proofs.Arithmetic
import Formula.Proofs.DecimalArithmetic

/-!
# Conversion to decimals

A finite float stands for a mantissa times a power of two, and has an exact decimal: the powers of
two that are left of a denominator become powers of five (`Decimal.toRat_ofFinite`). `Value.ideal?`
is the exact value of a number, if it has one, and a conversion to `decimal` delivers it
(`Value.delivers_convert`).
-/

namespace Formula

/-! ## Floats -/

/-- The number that a finite float stands for. -/
def FloatValue.toRat? : FloatValue → Option ℚ
  | .finite negative m e => some ((if negative then -1 else 1) * (m * 2 ^ e))
  | .infinite _ | .nan => none

theorem FloatValue.abs_signed (negative : Bool) (m : ℕ) (e : ℤ) :
    |((if negative then -1 else 1) * (m * 2 ^ e) : ℚ)| = m * 2 ^ e := by
  rw [abs_mul, abs_of_nonneg (by positivity : (0 : ℚ) ≤ m * 2 ^ e)]
  cases negative <;> simp

namespace Decimal

/-- The part of a mantissa that a power of two divides. -/
theorem exists_gcd_two_pow (m n : ℕ) : ∃ j ≤ n, Nat.gcd m (2 ^ n) = 2 ^ j ∧ 2 ^ j ∣ m := by
  obtain ⟨j, hj, hgcd⟩ := (Nat.dvd_prime_pow Nat.prime_two).mp (Nat.gcd_dvd_right m (2 ^ n))
  exact ⟨j, hj, hgcd, hgcd ▸ Nat.gcd_dvd_left m (2 ^ n)⟩

theorem toRat_ofFinite (negative : Bool) (m : ℕ) (e : ℤ) :
    (ofFinite negative m e).toRat = (if negative then -1 else 1) * (m * 2 ^ e) := by
  have hsign : (((if negative then -1 else 1 : ℤ)) : ℚ) = if negative then -1 else 1 := by
    cases negative <;> simp
  unfold ofFinite
  simp only [Nat.pow_eq]
  split
  · rename_i hzero
    simp [hzero]
  · split
    · rename_i he
      rw [toRat, neg_zero, zpow_zero, mul_one, Int.cast_mul, hsign, Int.cast_natCast]
      push_cast
      rw [← zpow_natCast, Int.toNat_of_nonneg he]
    · rename_i he
      obtain ⟨j, hj, hgcd, q, rfl⟩ := exists_gcd_two_pow m (-e).toNat
      have hexp : e = -((-e).toNat : ℤ) := by omega
      generalize (-e).toNat = n at *
      obtain ⟨places, rfl⟩ := Nat.exists_eq_add_of_le hj
      have hplaces : j + places - Nat.log2 (2 ^ j) = places := by rw [Nat.log2_two_pow]; omega
      rw [hgcd, hplaces, Nat.mul_div_cancel_left q (Nat.two_pow_pos j), hexp]
      refine toRat_mk_of_eq ?_
      -- ten to the places takes off the fives and the twos that are left
      rw [Int.cast_mul, hsign, Int.cast_natCast, zpow_neg, zpow_natCast, zpow_natCast,
        show (10 : ℚ) = 2 * 5 by norm_num, mul_pow, pow_add]
      push_cast
      field_simp

theorem map_ofFloat? (x : FloatValue) : (ofFloat? x).map toRat = x.toRat? := by
  cases x with
  | finite negative m e => rw [ofFloat?, Option.map_some, toRat_ofFinite, FloatValue.toRat?]
  | infinite | nan => rfl

end Decimal

namespace FloatFormat

variable {f : FloatFormat}

/-- The exponent of the greatest numbers. -/
def maxExponent (f : FloatFormat) : ℤ := f.minExponent + (2 ^ f.exponentBits - 3)

theorem half_pos : 0 < f.half := Nat.two_pow_pos _

theorem two_mul_half (h : 0 < f.precision) : 2 * f.half = 2 ^ f.precision := by
  obtain ⟨n, hn⟩ := Nat.exists_eq_succ_of_ne_zero h.ne'
  rw [half, hn, Nat.pow_eq, Nat.succ_sub_one, Nat.succ_eq_add_one, Nat.pow_succ']

/-- The mantissas and exponents of finite floats. -/
theorem decode_bounds {bits : ℕ} {negative : Bool} {m : ℕ} {e : ℤ} (hprecision : 0 < f.precision)
    (hbits : 2 ≤ f.exponentBits) (h : f.decode bits = .finite negative m e) :
    m < 2 ^ f.precision ∧ f.minExponent ≤ e ∧ e ≤ f.maxExponent := by
  have hfields : (2 : ℤ) ^ 2 ≤ 2 ^ f.exponentBits := pow_le_pow_right₀ (by norm_num) hbits
  have hfraction := Nat.mod_lt (bits % f.signBit) (half_pos (f := f))
  rw [← two_mul_half hprecision, maxExponent]
  unfold decode at h
  simp only at h
  generalize bits % f.signBit = magnitude at h hfraction
  split at h
  · cases h
  · split at h
    · cases h
    · rename_i hnan hinfinite
      have hfield : magnitude / f.half < 2 ^ f.exponentBits - 1 := by
        rw [Nat.div_lt_iff_lt_mul half_pos]
        exact Nat.lt_of_le_of_ne (Nat.not_lt.mp hnan) (Ne.symm hinfinite)
      generalize magnitude / f.half = field at h hfield
      have hfield : (field : ℤ) + 1 < 2 ^ f.exponentBits := by
        exact_mod_cast Nat.add_lt_of_lt_sub hfield
      split at h
      · cases h
        omega
      · cases h
        omega

end FloatFormat

namespace Decimal

private theorem two_zpow_le_ten_zpow : (2 : ℚ) ^ (1200 : ℤ) ≤ 10 ^ (400 : ℤ) := by
  have h8 : (2 : ℚ) ^ (1200 : ℤ) = 8 ^ (400 : ℤ) := by
    rw [show (8 : ℚ) = 2 ^ (3 : ℤ) by norm_num, ← zpow_mul]
    congr 1
  rw [h8]
  exact zpow_le_zpow_left₀ (by norm_num) (by norm_num) (by norm_num)

theorem abs_toRat?_bounds {x : Float} {q : ℚ} (h : (Binary64.decode x).toRat? = some q) :
    (q ≠ 0 → 10 ^ (-400 : ℤ) ≤ |q|) ∧ |q| < 10 ^ (400 : ℤ) := by
  cases hx : Binary64.decode x with
  | infinite | nan =>
    rw [hx] at h
    cases h
  | finite negative m e =>
    rw [hx] at h
    cases h
    obtain ⟨hm, hlow, hhigh⟩ := FloatFormat.decode_bounds (by decide) (by decide) hx
    have hlow : -1074 ≤ e := hlow
    have hhigh : e ≤ 971 := hhigh
    rw [FloatValue.abs_signed]
    refine ⟨fun hne => ?_, ?_⟩
    · have hm1 : (1 : ℚ) ≤ m := by
        rcases Nat.eq_zero_or_pos m with rfl | hpos
        · exact absurd (by simp) hne
        · exact_mod_cast hpos
      calc (10 : ℚ) ^ (-400 : ℤ) ≤ 2 ^ (-1200 : ℤ) := by
            rw [zpow_neg, zpow_neg]
            exact inv_anti₀ (by positivity) two_zpow_le_ten_zpow
        _ ≤ 2 ^ e := zpow_le_zpow_right₀ (by norm_num) (by omega)
        _ ≤ m * 2 ^ e := le_mul_of_one_le_left (by positivity) hm1
    · have hm53 : (m : ℚ) < 2 ^ 53 := by exact_mod_cast hm
      calc (m : ℚ) * 2 ^ e < 2 ^ 53 * 2 ^ e := mul_lt_mul_of_pos_right hm53 (by positivity)
        _ = 2 ^ (53 + e) := by
          rw [zpow_add₀ (by norm_num)]
          norm_num
        _ ≤ 2 ^ (1200 : ℤ) := zpow_le_zpow_right₀ (by norm_num) (by omega)
        _ ≤ 10 ^ (400 : ℤ) := two_zpow_le_ten_zpow

/-- The integers of all kinds are in range. -/
theorem kept_ofInt {i : ℤ} (h : |i| < 2 ^ 64) : (ofInt i).Kept := by
  have hi : (|i| : ℚ) < 2 ^ 64 := by exact_mod_cast h
  refine ⟨(by decide : (0 : ℤ) ≤ maxScale), ?_⟩
  rw [toRat_ofInt, limit]
  linarith

end Decimal

/-! ## Numbers -/

namespace Value

/-- The exact value of a number; floats that are not finite have none. -/
def Number.ideal? : Number → Option ℚ
  | .int i => some i
  | .float x => (Binary64.decode x).toRat?
  | .decimal d => some d.toRat

theorem delivers_self {d : Decimal} (h : Decimal.Representable d.toRat) :
    DeliversDecimal d.toRat (.ok (.decimal d)) := by
  have hround : roundTo 28 d.toRat = d.toRat := by
    obtain ⟨n, hn⟩ := h.places
    exact roundTo_of_eq hn
  unfold DeliversDecimal
  rw [hround, if_pos h.abs_le]
  exact ⟨d, rfl, rfl⟩

theorem delivers_toDecimal {n : Number} {q : ℚ} (hq : n.ideal? = some q)
    (hint : ∀ i, n = .int i → |i| < 2 ^ 64)
    (hdecimal : ∀ d, n = .decimal d → Decimal.Representable d.toRat) :
    DeliversDecimal q (n.toDecimal.map .decimal) := by
  cases n with
  | int i =>
    cases hq
    rw [← Decimal.toRat_ofInt i]
    exact delivers_self (Decimal.kept_ofInt (hint i rfl)).representable
  | decimal d =>
    cases hq
    exact delivers_self (hdecimal d rfl)
  | float x =>
    have hq : (Binary64.decode x).toRat? = some q := hq
    obtain ⟨hlow, hhigh⟩ := Decimal.abs_toRat?_bounds hq
    rw [← Decimal.map_ofFloat?] at hq
    obtain ⟨d, hd, rfl⟩ := Option.map_eq_some_iff.mp hq
    have hfitted : (Number.float x).toDecimal.map Value.decimal = fitted Decimal.arithmetic d := by
      simp only [Number.toDecimal, hd, fitted, Decimal.fit?]
      rcases Decimal.arithmetic.fit? d with trap | _ | f <;> rfl
    rw [hfitted]
    exact delivers_fitted (Decimal.arithmetic_lawful.map_fit?_of_abs (by norm_num) hlow hhigh)

/-- The exact value of a numeric value. -/
def ideal? (v : Value) : Option ℚ := v.number?.bind Number.ideal?

/-- A conversion to `decimal` delivers the value of the number. -/
theorem delivers_convert {v : Value} {q : ℚ} (hq : v.ideal? = some q)
    (hv : ∀ d, v = .decimal d → Decimal.Representable d.toRat) :
    DeliversDecimal q (v.convert .decimal) := by
  obtain ⟨n, hn, hq⟩ := Option.bind_eq_some_iff.mp hq
  rw [convert_of_number? hn]
  refine delivers_toDecimal hq ?_ ?_
  · rintro i rfl
    cases v with
    | int k x =>
      cases hn
      have := k.toInt_bounds x
      rw [abs_lt]
      omega
    | _ => cases hn
  · rintro d rfl
    cases v with
    | decimal d' =>
      cases hn
      exact hv d rfl
    | _ => cases hn

end Value

end Formula
