import Formula.Proofs.DecimalRange
import Formula.Host

/-!
# Decimal arithmetic is correctly rounded

The numbers that decimals hold are those of `Decimal.Representable`: at most 28 fractional digits
and a magnitude of at most `2 ^ 96 - 1`. On them every operation gives the exact result, rounded
once to 28 places with a half to the even digit, or says that it is too large:
`Value.arith_decimal_rounds`.

Sums, products and remainders are exact before they are rounded. A quotient is rounded twice, and
the second rounding does not see the first one: `Decimal.Carried.roundTo_eq`. A quotient of two
numbers of 28 places is a fraction whose denominator has at most 57 digits, so it is no nearer to a
tie than one unit of that denominator, and a hundred digits reach further.
-/

namespace Formula

namespace Decimal

/-- The number has at most 28 fractional digits. -/
def HasPlaces (q : ℚ) : Prop := ∃ n : ℤ, q * 10 ^ maxScale = n

/-- The number can be held by a decimal. -/
structure Representable (q : ℚ) : Prop where
  abs_le : |q| ≤ limit
  places : HasPlaces q

variable {ops : Arithmetic} {a b q v x : ℚ} {d : Decimal}

/-! ## Places -/

theorem HasPlaces.add (ha : HasPlaces a) (hb : HasPlaces b) : HasPlaces (a + b) := by
  obtain ⟨m, hm⟩ := ha
  obtain ⟨n, hn⟩ := hb
  exact ⟨m + n, by rw [add_mul, hm, hn, Int.cast_add]⟩

theorem HasPlaces.mul_int (ha : HasPlaces a) (n : ℤ) : HasPlaces (a * n) := by
  obtain ⟨m, hm⟩ := ha
  exact ⟨m * n, by rw [mul_right_comm, hm, Int.cast_mul]⟩

theorem HasPlaces.neg (ha : HasPlaces a) : HasPlaces (-a) := by simpa using ha.mul_int (-1)

theorem HasPlaces.le_abs (h : HasPlaces q) (hq : q ≠ 0) : 10 ^ (-maxScale) ≤ |q| := by
  obtain ⟨n, hn⟩ := h
  have hn0 : n ≠ 0 := by
    rintro rfl
    rw [Int.cast_zero, mul_eq_zero, or_iff_left (ten_zpow_pos _).ne'] at hn
    exact hq hn
  have habs : |q| * 10 ^ maxScale = |n| := by
    rw [Int.cast_abs, ← hn, abs_mul, abs_of_pos (ten_zpow_pos _)]
  rw [zpow_neg, inv_le_iff_one_le_mul₀ (ten_zpow_pos _), habs]
  exact_mod_cast Int.one_le_abs hn0

theorem Representable.abs_lt (h : Representable q) : |q| < 10 ^ (29 : ℤ) :=
  h.abs_le.trans_lt (by norm_num [limit])

theorem Kept.representable (h : d.Kept) : Representable d.toRat :=
  ⟨h.2, _, (cast_mantissaAt h.1).symm⟩

/-- Numbers that are neither huge nor tiny are brought into range by the rule. -/
theorem Arithmetic.Lawful.map_fit?_of_abs (hops : ops.Lawful) {k : ℤ} (hk : k < 2 ^ 63)
    (hlow : d.toRat ≠ 0 → 10 ^ (-k) ≤ |d.toRat|) (hhigh : |d.toRat| < 10 ^ k) :
    (ops.fit? d).map (Option.map toRat) = .ok (kept? d.toRat) :=
  hops.map_fit? fun hne => countFits_of_abs hk (hlow (toRat_eq_zero.not.mpr hne)) hhigh hne

/-! ## Quotients -/

/-- A quotient of numbers of 28 places is in units of its denominator. -/
theorem exists_div_eq (ha : Representable a) (hb : Representable b) (hb0 : b ≠ 0) :
    ∃ m n : ℤ, n ≠ 0 ∧ a / b = m / n ∧ |(m : ℚ)| < 10 ^ 57 ∧ |(n : ℚ)| < 10 ^ 57 := by
  obtain ⟨m, hm⟩ := ha.places
  obtain ⟨n, hn⟩ := hb.places
  have hbound : ∀ {q : ℚ} {i : ℤ}, Representable q → q * 10 ^ maxScale = i →
      |(i : ℚ)| < 10 ^ 57 := by
    intro q i hq hi
    rw [← hi, abs_mul, abs_of_pos (ten_zpow_pos _)]
    calc |q| * 10 ^ maxScale < 10 ^ (29 : ℤ) * 10 ^ maxScale :=
          mul_lt_mul_of_pos_right hq.abs_lt (ten_zpow_pos _)
      _ = 10 ^ 57 := by norm_num [maxScale]
  refine ⟨m, n, ?_, ?_, hbound ha hm, hbound hb hn⟩
  · rintro rfl
    rw [Int.cast_zero, mul_eq_zero, or_iff_left (ten_zpow_pos _).ne'] at hn
    exact hb0 hn
  · rw [← hm, ← hn, mul_div_mul_right _ _ (ten_zpow_pos _).ne']

theorem abs_div_bounds (ha : Representable a) (hb : Representable b) (hb0 : b ≠ 0) :
    (a / b ≠ 0 → 1 / 10 ^ 57 < |a / b|) ∧ |a / b| < 10 ^ 57 := by
  obtain ⟨m, n, hn, hx, hm, hn57⟩ := exists_div_eq ha hb hb0
  have hn1 : 1 ≤ |(n : ℚ)| := by exact_mod_cast Int.one_le_abs hn
  have hpos : 0 < |(n : ℚ)| := by linarith
  rw [hx, abs_div]
  refine ⟨fun hne => ?_, ?_⟩
  · have hm0 : m ≠ 0 := by
      rintro rfl
      exact hne (by simp)
    have hm1 : 1 ≤ |(m : ℚ)| := by exact_mod_cast Int.one_le_abs hm0
    rw [div_lt_div_iff₀ (by norm_num) hpos, one_mul]
    linarith
  · rw [div_lt_iff₀ hpos]
    linarith

/-- An integer fraction that is no half differs from each half by a unit of twice its
denominator. -/
theorem le_abs_div_sub_half {m n k : ℤ} (hn : n ≠ 0) (hne : (m / n : ℚ) ≠ k + 1 / 2) :
    1 / (2 * |(n : ℚ)|) ≤ |(m / n : ℚ) - (k + 1 / 2)| := by
  have hn' : (n : ℚ) ≠ 0 := by exact_mod_cast hn
  have hdiff : (m / n : ℚ) - (k + 1 / 2) = (2 * m - (2 * k + 1) * n : ℤ) / (2 * n) := by
    push_cast
    field_simp
  have hint : 2 * m - (2 * k + 1) * n ≠ 0 := by
    intro hzero
    rw [hzero, Int.cast_zero, zero_div, sub_eq_zero] at hdiff
    exact hne hdiff
  rw [hdiff, abs_div, abs_mul, abs_two]
  gcongr
  exact_mod_cast Int.one_le_abs hint

theorem Carried.abs_sub_le (h : Carried x v) : |v - x| * 10 ^ 99 ≤ |x| := by
  rcases h with rfl | ⟨s, -, hdigits, hnear⟩
  · rw [sub_self, abs_zero, zero_mul]
    positivity
  · calc |v - x| * 10 ^ 99 ≤ |v - x| * (|x| * 10 ^ s) :=
          mul_le_mul_of_nonneg_left hdigits (abs_nonneg _)
      _ = |x| * (|v - x| * 10 ^ s) := by ring
      _ ≤ |x| := mul_le_of_le_one_right (abs_nonneg _) hnear

/-- A tie ends with the 29th place, so a division that has come to a hundred digits has met it. -/
theorem Carried.eq_of_tie {k : ℤ} (h : Carried x v) (hx : |x| < 10 ^ 57)
    (htie : x * 10 ^ maxScale = k + 1 / 2) : v = x := by
  rcases h with heq | ⟨s, hfrac, hdigits, -⟩
  · exact heq
  · rcases lt_or_ge maxScale s with hs | hs
    · refine absurd ?_ (hfrac ((10 * k + 5) * 10 ^ (s - maxScale - 1).toNat))
      calc x * 10 ^ s = x * 10 ^ maxScale * 10 * 10 ^ (s - maxScale - 1).toNat := by
            rw [← zpow_natCast, mul_assoc, mul_assoc, ← zpow_one_add₀ (by norm_num),
              ← zpow_add₀ (by norm_num)]
            congr 2
            omega
        _ = _ := by
            rw [htie]
            push_cast
            ring
    · have hle : |x| * 10 ^ s ≤ |x| * 10 ^ maxScale :=
        mul_le_mul_of_nonneg_left (zpow_le_zpow_right₀ (by norm_num) hs) (abs_nonneg _)
      have hlt : |x| * 10 ^ maxScale < 10 ^ 57 * 10 ^ maxScale :=
        mul_lt_mul_of_pos_right hx (ten_zpow_pos _)
      norm_num [maxScale, quotientDigits] at hle hlt hdigits
      linarith

/-- The digits that a quotient was cut to do not show after rounding to 28 places. -/
theorem Carried.roundTo_eq (ha : Representable a) (hb : Representable b) (hb0 : b ≠ 0)
    (h : Carried (a / b) v) : roundTo maxScale v = roundTo maxScale (a / b) := by
  have hlt := (abs_div_bounds ha hb hb0).2
  obtain ⟨m, n, hn, hx, hm, -⟩ := exists_div_eq ha hb hb0
  rw [hx] at h hlt ⊢
  have hxn : |(m / n : ℚ)| * |(n : ℚ)| = |(m : ℚ)| := by
    rw [abs_div, div_mul_cancel₀]
    positivity
  by_cases htie : ∃ k : ℤ, (m / n : ℚ) * 10 ^ maxScale = k + 1 / 2
  · obtain ⟨k, hk⟩ := htie
    rw [h.eq_of_tie hlt hk]
  · push Not at htie
    suffices halfEven (v * 10 ^ maxScale) = halfEven (m / n * 10 ^ maxScale) by
      rw [roundTo, roundTo, this]
    refine halfEven_eq_of_near fun k => ?_
    have hscaled : (m / n : ℚ) * 10 ^ maxScale = (m * 10 ^ 28 : ℤ) / n := by
      push_cast
      rw [div_mul_eq_mul_div]
      rfl
    have hgap := le_abs_div_sub_half hn (hscaled ▸ htie k)
    rw [← hscaled] at hgap
    refine lt_of_lt_of_le ?_ hgap
    rw [← sub_mul, abs_mul, abs_of_pos (ten_zpow_pos _), lt_div_iff₀ (by positivity)]
    have hnear : |v - m / n| * |(n : ℚ)| * 10 ^ 99 ≤ |(m : ℚ)| := by
      have := mul_le_mul_of_nonneg_right h.abs_sub_le (abs_nonneg (n : ℚ))
      rw [hxn] at this
      linarith
    norm_num [maxScale]
    linarith

theorem Arithmetic.Lawful.map_fit?_div (hops : ops.Lawful) {a b : Decimal}
    (ha : Representable a.toRat) (hb : Representable b.toRat) (hb0 : b.mantissa ≠ 0) :
    (ops.fit? (ops.div a b)).map (Option.map toRat) = .ok (kept? (a.toRat / b.toRat)) := by
  have hb0' : b.toRat ≠ 0 := toRat_eq_zero.not.mpr hb0
  have hcarried := hops.carried_div a b hb0
  have hkept : kept? (ops.div a b).toRat = kept? (a.toRat / b.toRat) := by
    rw [kept?, kept?, hcarried.roundTo_eq ha hb hb0']
  obtain ⟨hlow, hhigh⟩ := abs_div_bounds ha hb hb0'
  have hnear := hcarried.abs_sub_le
  have hsub := abs_sub_abs_le_abs_sub (ops.div a b).toRat (a.toRat / b.toRat)
  have hsub' := abs_sub_abs_le_abs_sub (a.toRat / b.toRat) (ops.div a b).toRat
  rw [abs_sub_comm (a.toRat / b.toRat)] at hsub'
  rw [← hkept]
  refine hops.map_fit?_of_abs (k := 58) (by norm_num) (fun hv => ?_) ?_
  · have hx : a.toRat / b.toRat ≠ 0 := by
      intro hzero
      rw [hzero, sub_zero, abs_zero] at hnear
      exact hv (abs_eq_zero.mp (by linarith [abs_nonneg (ops.div a b).toRat]))
    have := hlow hx
    norm_num at this ⊢
    linarith
  · norm_num
    linarith

end Decimal

/-! ## Remainders -/

private theorem abs_sub_towardZero_lt (q : ℚ) : |q - towardZero q| < 1 := by
  unfold towardZero
  split
  · rw [abs_of_nonneg (sub_nonneg.mpr (Int.floor_le q))]
    linarith [Int.lt_floor_add_one q]
  · rw [abs_of_nonpos (sub_nonpos.mpr (Int.le_ceil q))]
    linarith [Int.ceil_lt_add_one q]

/-- What is cut off has the sign of the number. -/
theorem mul_sub_towardZero_nonneg (q : ℚ) : 0 ≤ q * (q - towardZero q) := by
  unfold towardZero
  split
  · rename_i h
    exact mul_nonneg h (sub_nonneg.mpr (Int.floor_le q))
  · rename_i h
    exact mul_nonneg_of_nonpos_of_nonpos (not_le.mp h).le (sub_nonpos.mpr (Int.le_ceil q))

theorem truncatedRemainder_eq (a : ℚ) {b : ℚ} (hb : b ≠ 0) :
    truncatedRemainder a b = b * (a / b - towardZero (a / b)) := by
  rw [truncatedRemainder, mul_sub, mul_div_cancel₀ a hb]

theorem abs_truncatedRemainder_lt (a : ℚ) {b : ℚ} (hb : b ≠ 0) :
    |truncatedRemainder a b| < |b| := by
  rw [truncatedRemainder_eq a hb, abs_mul]
  exact mul_lt_of_lt_one_right (abs_pos.mpr hb) (abs_sub_towardZero_lt _)

theorem mul_truncatedRemainder_nonneg (a : ℚ) {b : ℚ} (hb : b ≠ 0) :
    0 ≤ a * truncatedRemainder a b := by
  have hsplit : a * truncatedRemainder a b = b ^ 2 * (a / b * (a / b - towardZero (a / b))) := by
    rw [truncatedRemainder_eq a hb]
    field_simp
  rw [hsplit]
  exact mul_nonneg (sq_nonneg b) (mul_sub_towardZero_nonneg _)

/-! ## Operations -/

/-- The exact result of an operation, where there is a rational one. -/
def ArithOp.ideal? (op : ArithOp) (a b : ℚ) : Option ℚ :=
  match op with
  | .add => some (a + b)
  | .sub => some (a - b)
  | .mul => some (a * b)
  | .div => if b = 0 then none else some (a / b)
  | .rem => if b = 0 then none else some (truncatedRemainder a b)
  | .pow => none

/-- The outcome for the exact result `q`: the number nearest to it that has 28 places, or, if that
is too large, the failure that says so. -/
def DeliversDecimal (q : ℚ) (o : Outcome) : Prop :=
  let r := roundTo 28 q
  if |r| ≤ Decimal.limit then ∃ d : Decimal, o = .ok (.decimal d) ∧ d.toRat = r
  else o = .error (.overflow .decimal)

namespace Value

open Decimal

variable {ops : Arithmetic}

theorem delivers_fitted {d : Decimal} {q : ℚ}
    (h : (ops.fit? d).map (Option.map toRat) = .ok (kept? q)) :
    DeliversDecimal q (fitted ops d) := by
  obtain ⟨o, ho, hmap⟩ := Except.map_ok h
  have hkept : kept? q = if |roundTo 28 q| ≤ limit then some (roundTo 28 q) else none := rfl
  rw [hkept] at hmap
  unfold DeliversDecimal
  simp only [fitted, ho]
  by_cases hle : |roundTo 28 q| ≤ limit
  · rw [if_pos hle] at hmap ⊢
    obtain ⟨f, rfl, hr⟩ := Option.map_eq_some_iff.mp hmap
    exact ⟨f, rfl, hr⟩
  · rw [if_neg hle] at hmap ⊢
    rw [Option.map_eq_none_iff.mp hmap]

theorem delivers_fitted_of_hasPlaces (hops : ops.Lawful) {d : Decimal} (hplaces : HasPlaces d.toRat)
    (hlt : |d.toRat| < 10 ^ (30 : ℤ)) : DeliversDecimal d.toRat (fitted ops d) := by
  refine delivers_fitted (hops.map_fit?_of_abs (k := 30) (by norm_num) (fun hne => ?_) hlt)
  exact (zpow_le_zpow_right₀ (by norm_num) (by decide)).trans (hplaces.le_abs hne)

theorem delivers_fitted_mul (hops : ops.Lawful) {a b : Decimal} (ha : Representable a.toRat)
    (hb : Representable b.toRat) :
    DeliversDecimal (a.toRat * b.toRat) (fitted ops (ops.mul a b)) := by
  rw [← hops.toRat_mul]
  refine delivers_fitted (hops.map_fit?_of_abs (k := 58) (by norm_num) ?_ ?_)
  · rw [hops.toRat_mul, abs_mul]
    intro hne
    calc (10 : ℚ) ^ (-58 : ℤ) ≤ 10 ^ (-maxScale) * 10 ^ (-maxScale) := by norm_num [maxScale]
      _ ≤ |a.toRat| * |b.toRat| := by
        have h1 := ha.places.le_abs (left_ne_zero_of_mul hne)
        have h2 := hb.places.le_abs (right_ne_zero_of_mul hne)
        gcongr
  · rw [hops.toRat_mul, abs_mul]
    calc |a.toRat| * |b.toRat| < 10 ^ (29 : ℤ) * 10 ^ (29 : ℤ) :=
          mul_lt_mul'' ha.abs_lt hb.abs_lt (abs_nonneg _) (abs_nonneg _)
      _ = 10 ^ (58 : ℤ) := by norm_num

/-- On numbers that decimals hold, lawful operations deliver the exact result. -/
theorem delivers_decimalArith (hops : ops.Lawful) {op : ArithOp} {a b : Decimal}
    (ha : Representable a.toRat) (hb : Representable b.toRat) {q : ℚ}
    (hq : op.ideal? a.toRat b.toRat = some q) : DeliversDecimal q (decimalArith ops op a b) := by
  have hsum : ∀ s : ℚ, |s| ≤ |a.toRat| + |b.toRat| → |s| < 10 ^ (30 : ℤ) := fun s hs => by
    have h1 := ha.abs_lt
    have h2 := hb.abs_lt
    norm_num at h1 h2 ⊢
    linarith
  cases op with
  | add =>
    cases hq
    rw [← hops.toRat_add]
    refine delivers_fitted_of_hasPlaces hops ?_ (hsum _ ?_) <;> rw [hops.toRat_add]
    · exact ha.places.add hb.places
    · exact abs_add_le _ _
  | sub =>
    cases hq
    rw [← hops.toRat_sub]
    refine delivers_fitted_of_hasPlaces hops ?_ (hsum _ ?_) <;> rw [hops.toRat_sub]
    · rw [sub_eq_add_neg]
      exact ha.places.add hb.places.neg
    · exact abs_sub _ _
  | mul =>
    cases hq
    exact delivers_fitted_mul hops ha hb
  | div =>
    obtain ⟨hb0, hq⟩ := Option.ite_none_left_eq_some.mp hq
    cases hq
    have hm : b.mantissa ≠ 0 := toRat_eq_zero.not.mp hb0
    rw [decimalArith, if_neg hm]
    exact delivers_fitted (hops.map_fit?_div ha hb hm)
  | rem =>
    obtain ⟨hb0, hq⟩ := Option.ite_none_left_eq_some.mp hq
    cases hq
    have hm : b.mantissa ≠ 0 := toRat_eq_zero.not.mp hb0
    have hlt := abs_truncatedRemainder_lt a.toRat hb0
    rw [decimalArith, if_neg hm]
    rw [← hops.toRat_rem a b hm] at hlt ⊢
    refine delivers_fitted_of_hasPlaces hops ?_ (hsum _ (by linarith [abs_nonneg a.toRat]))
    rw [hops.toRat_rem a b hm, truncatedRemainder, sub_eq_add_neg]
    exact ha.places.add (hb.places.mul_int _).neg
  | pow => cases hq

theorem delivers_arith {op : ArithOp} {a b : Decimal} (ha : Representable a.toRat)
    (hb : Representable b.toRat) {q : ℚ} (hq : op.ideal? a.toRat b.toRat = some q) :
    DeliversDecimal q (arith op (.decimal a) (.decimal b)) :=
  delivers_decimalArith arithmetic_lawful ha hb hq

/-- On numbers that decimals hold, arithmetic gives the exact result rounded once, a half to the
even digit, or says that it is too large. A remainder belongs to the quotient that is cut off toward
zero and has the sign of the dividend; only division by zero has no result. -/
theorem arith_decimal_rounds (op : ArithOp) (hop : op ≠ .pow) {a b : Decimal}
    (ha : Representable a.toRat) (hb : Representable b.toRat) :
    if (op = .div ∨ op = .rem) ∧ b.toRat = 0 then
      arith op (.decimal a) (.decimal b) = .error .divideByZero
    else ∃ q, op.ideal? a.toRat b.toRat = some q ∧
      DeliversDecimal q (arith op (.decimal a) (.decimal b)) ∧
      (op = .rem → |q| < |b.toRat| ∧ 0 ≤ a.toRat * q) := by
  split
  · rename_i hzero
    obtain ⟨hop, hb0⟩ := hzero
    have hm := toRat_eq_zero.mp hb0
    rcases hop with rfl | rfl <;> exact if_pos hm
  · rename_i hzero
    cases op with
    | add | sub | mul => exact ⟨_, rfl, delivers_arith ha hb rfl, nofun⟩
    | div =>
      have hq : ArithOp.ideal? .div a.toRat b.toRat = _ := if_neg fun hb0 => hzero ⟨.inl rfl, hb0⟩
      exact ⟨_, hq, delivers_arith ha hb hq, nofun⟩
    | rem =>
      have hb0 : b.toRat ≠ 0 := fun hb0 => hzero ⟨.inr rfl, hb0⟩
      have hq : ArithOp.ideal? .rem a.toRat b.toRat = _ := if_neg hb0
      exact ⟨_, hq, delivers_arith ha hb hq,
        fun _ => ⟨abs_truncatedRemainder_lt _ hb0, mul_truncatedRemainder_nonneg _ hb0⟩⟩
    | pow => exact absurd rfl hop

/-- Two thirds have no last digit: the 28th place is rounded up. -/
theorem arith_decimal_rounds_two_thirds :
    Representable (Decimal.ofInt 2).toRat ∧ Representable (Decimal.ofInt 3).toRat ∧
      (∃ q, ArithOp.ideal? .div (Decimal.ofInt 2).toRat (Decimal.ofInt 3).toRat = some q ∧
        DeliversDecimal q (arith .div (.decimal (Decimal.ofInt 2)) (.decimal (Decimal.ofInt 3)))) ∧
      arith .div (.decimal (Decimal.ofInt 2)) (.decimal (Decimal.ofInt 3)) =
        .ok (.decimal ⟨6666666666666666666666666667, 28⟩) := by
  have htwo : Representable (Decimal.ofInt 2).toRat :=
    Kept.representable ⟨by decide, by rw [Decimal.toRat_ofInt]; norm_num [limit]⟩
  have hthree : Representable (Decimal.ofInt 3).toRat :=
    Kept.representable ⟨by decide, by rw [Decimal.toRat_ofInt]; norm_num [limit]⟩
  have hrule := arith_decimal_rounds .div (by decide) htwo hthree
  rw [if_neg (by simp)] at hrule
  obtain ⟨q, hq, hdelivers, -⟩ := hrule
  have hfit : arithmetic.fit? (arithmetic.div (Decimal.ofInt 2) (Decimal.ofInt 3)) =
      .ok (some ⟨6666666666666666666666666667, 28⟩) := Except.toOption_eq_some (by decide +kernel)
  refine ⟨htwo, hthree, ⟨q, hq, hdelivers⟩, ?_⟩
  simp only [arith, decimalArith, fitted, hfit]
  rfl

end Value

end Formula
