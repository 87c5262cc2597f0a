import Formula.Proofs.HalfEven

/-!
# The laws of decimal operations

The program computes with the operations of a `Decimal.Arithmetic`, and what is said of its results
rests on their laws alone: `Decimal.Arithmetic.Lawful`. Sums, differences, products and remainders
are exact, and a half is rounded to the even digit.

A quotient is carried to a hundred digits, the last of which is rounded. `Decimal.Carried x v` says
what is known of the result `v` for the exact quotient `x`: it is exact, or `x` is no multiple of
the last unit, has a hundred digits in that unit, and `v` is at most one unit off.
`Decimal.carried_div` is the statement for `Decimal.div`; its core is what a run of
`Decimal.carryDigits` keeps, `Decimal.carryDigits_keeps`.

The operations of the program are lawful: `Decimal.arithmetic_lawful`.
-/

namespace Formula

/-! ## Digits -/

theorem digitCount_pos (n : ℕ) : 0 < digitCount n := Nat.length_toDigits_pos

theorem lt_pow_digitCount (n : ℕ) : n < 10 ^ digitCount n :=
  (Nat.length_toDigits_le_iff (by norm_num) (digitCount_pos n)).mp le_rfl

theorem pow_digitCount_le {n : ℕ} (h : n ≠ 0) : 10 ^ (digitCount n - 1) ≤ n := by
  by_contra! hlt
  rcases Nat.eq_zero_or_pos (digitCount n - 1) with hone | hpos
  · rw [hone] at hlt
    omega
  · have hle : digitCount n ≤ digitCount n - 1 :=
      (Nat.length_toDigits_le_iff (by norm_num) hpos).mpr hlt
    have := digitCount_pos n
    omega

namespace Decimal

/-! ## Long division -/

/-- The state `(quotient, remainder, places)` of a long division by `den` that started from
`num`. -/
structure DivisionState (den num : ℕ) (state : ℕ × ℕ × ℕ) : Prop where
  value_eq : state.1 * den + state.2.1 = num * 10 ^ state.2.2
  remainder_lt : state.2.1 < den

/-- The division ends without remainder or with all places written. -/
theorem carryDigits_keeps {den : ℕ} (room quotient remainder : ℕ) (h : remainder < den) :
    DivisionState den (quotient * den + remainder) (carryDigits den room quotient remainder) ∧
      ((carryDigits den room quotient remainder).2.1 = 0 ∨
        (carryDigits den room quotient remainder).2.2 = room) := by
  induction room generalizing quotient remainder with
  | zero => exact ⟨⟨by simp [carryDigits], h⟩, .inr rfl⟩
  | succ room ih =>
    rw [carryDigits]
    split
    · rename_i hzero
      exact ⟨⟨by simp, h⟩, .inl hzero⟩
    · have hden : 0 < den := by omega
      obtain ⟨⟨hvalue, hlt⟩, hend⟩ :=
        ih (quotient * 10 + remainder * 10 / den) (remainder * 10 % den) (Nat.mod_lt _ hden)
      -- one more digit: the numerator of the rest is ten times the one before
      have hstep : (quotient * 10 + remainder * 10 / den) * den + remainder * 10 % den =
          (quotient * den + remainder) * 10 := by
        have := Nat.div_add_mod' (remainder * 10) den
        rw [add_mul, add_assoc, this]
        ring
      rw [hstep] at hvalue
      refine ⟨⟨?_, hlt⟩, hend.imp_right fun hplaces => by simp [hplaces]⟩
      rw [hvalue, pow_succ', mul_assoc]

/-- The quotient of `x` as a division to a hundred digits may give it: `x` itself if it ends by
then, and otherwise something that is at most one unit of the last digit off. -/
def Carried (x v : ℚ) : Prop :=
  v = x ∨ ∃ s : ℤ, (∀ n : ℤ, x * 10 ^ s ≠ n) ∧ 10 ^ (quotientDigits - 1) ≤ |x| * 10 ^ s ∧
    |v - x| * 10 ^ s ≤ 1

theorem Carried.sign_mul {x v : ℚ} {m : ℤ} (h : Carried x v) (hm : m ≠ 0) :
    Carried (m.sign * x) (m.sign * v) := by
  rcases m.sign_trichotomy with hs | hs | hs
  · simpa [hs] using h
  · exact absurd (Int.sign_eq_zero_iff_zero.mp hs) hm
  · rcases h with rfl | ⟨s, hfrac, hdigits, hnear⟩
    · exact .inl rfl
    · refine .inr ⟨s, fun n hn => hfrac (-n) ?_, ?_, ?_⟩
      · rw [Int.cast_neg, ← hn, hs]
        push_cast
        ring
      · simpa [hs] using hdigits
      · rw [← mul_sub, abs_mul, hs]
        simpa using hnear

/-- A state that ended with all places written has a quotient of a hundred digits. -/
theorem DivisionState.digits_le {den start : ℕ} {state : ℕ × ℕ × ℕ}
    (h : DivisionState den start state) (hstart : den ≤ start)
    (hplaces : state.2.2 = quotientDigits - digitCount (start / den)) :
    10 ^ (quotientDigits - 1) ≤ state.1 := by
  have hden : 0 < den := (Nat.zero_le _).trans_lt h.remainder_lt
  have hlead : start / den ≠ 0 := (Nat.div_pos hstart hden).ne'
  have hquotient : state.1 = start * 10 ^ state.2.2 / den := by
    rw [← h.value_eq, Nat.mul_comm, Nat.mul_add_div hden, Nat.div_eq_of_lt h.remainder_lt, add_zero]
  have hcount := digitCount_pos (start / den)
  calc 10 ^ (quotientDigits - 1)
      ≤ 10 ^ (digitCount (start / den) - 1 + state.2.2) :=
      Nat.pow_le_pow_right (by norm_num) (by omega)
    _ ≤ start / den * 10 ^ state.2.2 := by
        rw [pow_add]
        exact Nat.mul_le_mul_right _ (pow_digitCount_le hlead)
    _ ≤ state.1 := by
        rw [hquotient, Nat.mul_comm (start / den), Nat.mul_comm start]
        exact Nat.mul_div_le_mul_div_assoc ..

/-- The last digit goes up from a remainder of one half. -/
theorem abs_lastDigit_sub_le (q : ℕ) {r den : ℕ} (hlt : r < den) :
    |((if r * 10 / den < 5 then q else q + 1 : ℤ) : ℚ) - (q + r / den)| ≤ 1 / 2 := by
  have hden : (0 : ℚ) < den := by exact_mod_cast (Nat.zero_le r).trans_lt hlt
  have hfrac0 : (0 : ℚ) ≤ r / den := by positivity
  have hfrac1 : (r : ℚ) / den < 1 := by
    rw [div_lt_one hden]
    exact_mod_cast hlt
  simp only [Nat.div_lt_iff_lt_mul ((Nat.zero_le r).trans_lt hlt)]
  split
  · have hdown : (r : ℚ) / den < 1 / 2 := by
      rw [div_lt_div_iff₀ hden two_pos]
      exact_mod_cast (by omega : r * 2 < 1 * den)
    rw [Int.cast_natCast, abs_le]
    constructor <;> linarith
  · have hup : 1 / 2 ≤ (r : ℚ) / den := by
      rw [div_le_div_iff₀ two_pos hden]
      exact_mod_cast (by omega : 1 * den ≤ r * 2)
    push_cast
    rw [abs_le]
    constructor <;> linarith

theorem DivisionState.carried {den start : ℕ} {state : ℕ × ℕ × ℕ}
    (h : DivisionState den start state) (hend : state.2.1 = 0 ∨ 10 ^ (quotientDigits - 1) ≤ state.1)
    {x : ℚ} {s : ℤ} (hx : x * 10 ^ s = start * 10 ^ state.2.2 / den) :
    Carried x (toRat ⟨if state.2.1 * 10 / den < 5 then state.1 else state.1 + 1, s⟩) := by
  obtain ⟨q, r, places⟩ := state
  obtain ⟨hvalue, hlt⟩ := h
  simp only at hvalue hlt hend hx ⊢
  have hden : (0 : ℚ) < den := by exact_mod_cast (Nat.zero_le r).trans_lt hlt
  have hxq : x * 10 ^ s = q + r / den := by
    rw [hx, eq_comm, ← mul_div_cancel_right₀ (q : ℚ) hden.ne', ← add_div]
    congr 1
    exact_mod_cast hvalue
  by_cases hr : r = 0
  · left
    rw [hr, Nat.cast_zero, zero_div, add_zero] at hxq
    rw [hr, if_pos (by simp)]
    exact toRat_mk_of_eq (by rw [hxq]; simp)
  · right
    have hfrac : (0 : ℚ) < r / den := by
      have : (0 : ℚ) < r := by exact_mod_cast Nat.pos_of_ne_zero hr
      positivity
    have hfrac1 : (r : ℚ) / den < 1 := by
      rw [div_lt_one hden]
      exact_mod_cast hlt
    have hunit := ten_zpow_pos s
    refine ⟨s, fun n hn => ?_, ?_, ?_⟩
    · -- the remainder stands strictly between two multiples of the unit
      rw [hxq] at hn
      have h1 : (q : ℤ) < n := by
        have : (q : ℚ) < n := by linarith
        exact_mod_cast this
      have h2 : n < (q : ℤ) + 1 := by
        have : (n : ℚ) < q + 1 := by linarith
        exact_mod_cast this
      omega
    · have hbig : ((10 ^ (quotientDigits - 1) : ℕ) : ℚ) ≤ q := by
        exact_mod_cast hend.resolve_left hr
      have habs : |x| * 10 ^ s = q + r / den := by
        rw [← abs_of_pos hunit, ← abs_mul, hxq, abs_of_nonneg (by positivity)]
      rw [habs]
      push_cast at hbig
      linarith
    · calc |toRat ⟨_, s⟩ - x| * 10 ^ s = |(toRat ⟨_, s⟩ - x) * 10 ^ s| := by
            rw [abs_mul, abs_of_pos hunit]
        _ = |((if r * 10 / den < 5 then q else q + 1 : ℤ) : ℚ) - (q + r / den)| := by
            rw [sub_mul, hxq, toRat_mul_zpow, sub_self, zpow_zero, mul_one]
        _ ≤ 1 / 2 := abs_lastDigit_sub_le q hlt
        _ ≤ 1 := by norm_num

/-! ## Decimals -/

private theorem carried_divNat {num den : ℕ} (hnum : num ≠ 0) (hden : den ≠ 0) (scale : ℤ) :
    Carried (num / den * 10 ^ (-scale)) (divNat num den scale).toRat := by
  unfold divNat
  simp only [Nat.pow_eq]
  generalize hlead : (if num * 10 ^ (digitCount den - digitCount num) < den then
    digitCount den - digitCount num + 1 else digitCount den - digitCount num) = lead
  have hstart : den ≤ num * 10 ^ lead := by
    split at hlead
    · have hexp : digitCount den ≤ digitCount num - 1 + lead := by omega
      calc den ≤ 10 ^ digitCount den := (lt_pow_digitCount den).le
        _ ≤ 10 ^ (digitCount num - 1) * 10 ^ lead := by
          rw [← pow_add]
          exact Nat.pow_le_pow_right (by norm_num) hexp
        _ ≤ num * 10 ^ lead := Nat.mul_le_mul_right _ (pow_digitCount_le hnum)
    · rename_i hle
      rw [← hlead]
      exact not_lt.mp hle
  generalize hs : num * 10 ^ lead = start at hstart
  obtain ⟨hstate, hend⟩ :=
    carryDigits_keeps (quotientDigits - digitCount (start / den)) (start / den)
    (start % den) (Nat.mod_lt _ (Nat.pos_of_ne_zero hden))
  rw [Nat.div_add_mod'] at hstate
  refine hstate.carried (hend.imp_right (hstate.digits_le hstart)) ?_
  obtain ⟨q, r, places⟩ := carryDigits den _ _ _
  rw [← hs]
  push_cast
  rw [mul_assoc, ← zpow_add₀ (by norm_num), ← zpow_natCast, ← zpow_natCast, mul_assoc,
    ← zpow_add₀ (by norm_num), div_mul_eq_mul_div]
  congr 3
  ring

theorem carried_div {b : Decimal} (a : Decimal) (hb : b.mantissa ≠ 0) :
    Carried (a.toRat / b.toRat) (a.div b).toRat := by
  have hb' : (b.mantissa : ℚ) ≠ 0 := by exact_mod_cast hb
  have hquotient : a.toRat / b.toRat = a.mantissa / b.mantissa * 10 ^ (-(a.scale - b.scale)) := by
    rw [toRat, toRat, mul_div_mul_comm, ← zpow_sub₀ (by norm_num)]
    congr 2
    omega
  unfold div
  split
  · rename_i h
    left
    rcases h with ha | hone
    · rw [toRat_eq_zero.mpr ha, zero_div]
    · rw [toRat_of_isOne hone, div_one]
  · rename_i hspecial
    have ha : a.mantissa ≠ 0 := fun ha => hspecial (.inl ha)
    split
    · rename_i heq
      left
      rw [hquotient, heq, div_self hb', toRat]
      simp
    · have hcarried := (carried_divNat (Int.natAbs_ne_zero.mpr ha) (Int.natAbs_ne_zero.mpr hb)
        (a.scale - b.scale)).sign_mul (mul_ne_zero ha hb)
      have hsign : (a.mantissa / b.mantissa : ℚ) =
          (a.mantissa * b.mantissa).sign * (a.mantissa.natAbs / b.mantissa.natAbs) := by
        have habs : ∀ m : ℤ, (m : ℚ) = m.sign * m.natAbs := fun m => by
          rw [← Int.cast_natCast, ← Int.cast_mul, m.sign_mul_natAbs]
        rw [habs a.mantissa, habs b.mantissa, Int.sign_mul]
        rcases lt_or_gt_of_ne hb with hneg | hpos
        · rw [Int.sign_eq_neg_one_of_neg hneg]
          push_cast
          ring
        · rw [Int.sign_eq_one_of_pos hpos]
          push_cast
          ring
      have hvalue : ∀ q : Decimal, toRat ⟨a.mantissa.sign * b.mantissa.sign * q.mantissa, q.scale⟩ =
          (a.mantissa * b.mantissa).sign * q.toRat := fun q => by
        rw [toRat, toRat, Int.sign_mul]
        push_cast
        ring
      rwa [hquotient, hsign, mul_assoc, hvalue]

/-! ## Laws -/

/-- **What is assumed of the operations on decimals.** The divisor of a quotient or a remainder is
not zero, and what is rounded has more places than are left. -/
structure Arithmetic.Lawful (ops : Arithmetic) : Prop where
  toRat_add : ∀ a b, (ops.add a b).toRat = a.toRat + b.toRat
  toRat_sub : ∀ a b, (ops.sub a b).toRat = a.toRat - b.toRat
  toRat_mul : ∀ a b, (ops.mul a b).toRat = a.toRat * b.toRat
  carried_div : ∀ a b : Decimal, b.mantissa ≠ 0 → Carried (a.toRat / b.toRat) (ops.div a b).toRat
  toRat_rem : ∀ a b : Decimal, b.mantissa ≠ 0 →
    (ops.rem a b).toRat = truncatedRemainder a.toRat b.toRat
  toRat_round : ∀ places, ∀ d : Decimal, places < d.scale →
    (ops.round places d).toRat = roundTo places d.toRat
  scale_round_le : ∀ places, ∀ d : Decimal, places < d.scale → (ops.round places d).scale ≤ places

/-- The operations of the program have the laws. -/
theorem arithmetic_lawful : arithmetic.Lawful where
  toRat_add := toRat_add
  toRat_sub := toRat_sub
  toRat_mul := toRat_mul
  carried_div a _ hb := carried_div a hb
  toRat_rem a b _ := toRat_rem a b
  toRat_round _ _ := toRat_round
  scale_round_le _ _ _ := le_rfl

end Decimal

end Formula
