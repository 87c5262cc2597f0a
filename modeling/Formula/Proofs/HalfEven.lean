import Formula.Proofs.DecimalValue

/-!
# Rounding to the nearest, a half to the even neighbour

`halfEven q` is the integer nearest to the rational number `q`, and of two nearest ones the even
one: `halfEven_eq_iff` says that this describes it. `roundTo places q` keeps that many fractional
digits.

* `cast_roundHalfEven`, `Decimal.toRat_round`: quotients of natural numbers and decimals are rounded
  so.
* `halfEven_eq_of_near`: numbers that lie nearer to each other than to any half are rounded alike.
-/

namespace Formula

/-- The nearest integer, a half going to the even neighbour. -/
def halfEven (q : ℚ) : ℤ :=
  if Int.fract q < 1 / 2 then ⌊q⌋
  else if 1 / 2 < Int.fract q then ⌊q⌋ + 1
  else if Even ⌊q⌋ then ⌊q⌋ else ⌊q⌋ + 1

/-- The integer `n` is nearest to `q`, and even if there is another one as near. -/
def IsHalfEven (q : ℚ) (n : ℤ) : Prop := |q - n| < 1 / 2 ∨ |q - n| = 1 / 2 ∧ Even n

theorem isHalfEven_halfEven (q : ℚ) : IsHalfEven q (halfEven q) := by
  have hq : q = ⌊q⌋ + Int.fract q := (Int.floor_add_fract q).symm
  have h0 := Int.fract_nonneg q
  have h1 := Int.fract_lt_one q
  unfold halfEven
  generalize ⌊q⌋ = n, Int.fract q = f at *
  have hdown : |q - n| = f := by rw [hq, add_sub_cancel_left, abs_of_nonneg h0]
  have hup : |q - (n + 1 : ℤ)| = 1 - f := by
    rw [hq, abs_of_nonpos (by push_cast; linarith)]
    push_cast
    ring
  split
  · exact .inl (by linarith)
  · split
    · exact .inl (by linarith)
    · split
      · rename_i heven
        exact .inr ⟨by linarith, heven⟩
      · rename_i hodd
        exact .inr ⟨by linarith, by rwa [Int.even_add_one]⟩

theorem IsHalfEven.abs_sub_le {q : ℚ} {n : ℤ} (h : IsHalfEven q n) : |q - n| ≤ 1 / 2 := by
  rcases h with h | h
  · exact h.le
  · exact h.1.le

theorem IsHalfEven.even {q : ℚ} {n : ℤ} (h : IsHalfEven q n) (hq : 1 / 2 ≤ |q - n|) : Even n := by
  rcases h with h | h
  · exact absurd h hq.not_gt
  · exact h.2

/-- Two such integers would be neighbours, both even. -/
theorem IsHalfEven.le {q : ℚ} {m n : ℤ} (hm : IsHalfEven q m) (hn : IsHalfEven q n) : n ≤ m := by
  by_contra! hlt
  have hmq := abs_le.mp hm.abs_sub_le
  have hnq := abs_le.mp hn.abs_sub_le
  have hle : (m : ℚ) + 1 ≤ n := by exact_mod_cast hlt
  have hq : q = m + 1 / 2 := by linarith
  have hnm : n = m + 1 := by
    have : (n : ℚ) = (m + 1 : ℤ) := by push_cast; linarith
    exact_mod_cast this
  subst hq hnm
  have hevenm : Even m := hm.even (by rw [add_sub_cancel_left]; norm_num)
  have hevenn : Even (m + 1) := hn.even (by push_cast; ring_nf; norm_num)
  exact Int.even_add_one.mp hevenn hevenm

theorem IsHalfEven.unique {q : ℚ} {m n : ℤ} (hm : IsHalfEven q m) (hn : IsHalfEven q n) : m = n :=
  le_antisymm (hn.le hm) (hm.le hn)

theorem halfEven_eq_iff {q : ℚ} {n : ℤ} : halfEven q = n ↔ IsHalfEven q n :=
  ⟨fun h => h ▸ isHalfEven_halfEven q, (isHalfEven_halfEven q).unique⟩

theorem abs_sub_halfEven_le (q : ℚ) : |q - halfEven q| ≤ 1 / 2 := (isHalfEven_halfEven q).abs_sub_le

@[simp] theorem halfEven_intCast (n : ℤ) : halfEven n = n :=
  halfEven_eq_iff.mpr (.inl (by simp))

private theorem halfEven_neg (q : ℚ) : halfEven (-q) = -halfEven q := by
  rw [halfEven_eq_iff, IsHalfEven, Int.cast_neg, neg_sub_neg, abs_sub_comm, even_neg]
  exact isHalfEven_halfEven q

theorem halfEven_sign_mul (m : ℤ) (q : ℚ) : halfEven (m.sign * q) = m.sign * halfEven q := by
  rcases m.sign_trichotomy with h | h | h <;> rw [h]
  · simp
  · simpa using halfEven_intCast 0
  · simpa using halfEven_neg q

/-- Rounding a quotient of natural numbers. -/
theorem cast_roundHalfEven (num : ℕ) {den : ℕ} (h : 0 < den) :
    (roundHalfEven num den : ℤ) = halfEven (num / den) := by
  have hden : (0 : ℚ) < den := by exact_mod_cast h
  have hsplit : (num : ℚ) / den = (num / den : ℕ) + (num % den : ℕ) / den := by
    have := Nat.div_add_mod num den
    field_simp
    exact_mod_cast this.symm
  have hr : ((num % den : ℕ) : ℚ) < den := by exact_mod_cast Nat.mod_lt num h
  rw [eq_comm, halfEven_eq_iff, hsplit]
  unfold roundHalfEven
  generalize num / den = q, num % den = r at *
  have hdown : |(q : ℚ) + r / den - (q : ℤ)| = r / den := by
    rw [Int.cast_natCast, add_sub_cancel_left, abs_of_nonneg (by positivity)]
  have hup : |(q : ℚ) + r / den - ((q + 1 : ℕ) : ℤ)| = 1 - r / den := by
    rw [abs_of_nonpos]
    · push_cast
      ring
    · push_cast
      have : (r : ℚ) / den ≤ 1 := by rw [div_le_one hden]; exact hr.le
      linarith
  simp only [IsHalfEven]
  split
  · rename_i hlt
    left
    rw [hdown, div_lt_div_iff₀ hden two_pos]
    exact_mod_cast (by omega : r * 2 < 1 * den)
  · split
    · rename_i hlt
      left
      rw [hup, sub_lt_comm, show (1 : ℚ) - 1 / 2 = 1 / 2 by norm_num, div_lt_div_iff₀ two_pos hden]
      exact_mod_cast (by omega : 1 * den < r * 2)
    · have htie : (r : ℚ) / den = 1 / 2 := by
        rw [div_eq_div_iff hden.ne' two_ne_zero]
        exact_mod_cast (by omega : r * 2 = 1 * den)
      split
      · rename_i heven
        exact .inr ⟨by rw [hdown, htie], (Int.even_coe_nat q).mpr (Nat.even_iff.mpr heven)⟩
      · rename_i hodd
        refine .inr ⟨by rw [hup, htie]; norm_num, (Int.even_coe_nat _).mpr ?_⟩
        rw [Nat.even_add_one, Nat.even_iff]
        exact hodd

theorem halfEven_eq_of_near {x y : ℚ} (h : ∀ k : ℤ, |y - x| < |x - (k + 1 / 2)|) :
    halfEven y = halfEven x := by
  have hpos : ∀ k : ℤ, x ≠ k + 1 / 2 := fun k hk => by
    have := h k
    rw [hk, sub_self, abs_zero] at this
    exact absurd this (abs_nonneg _).not_gt
  have hnear := isHalfEven_halfEven x
  generalize halfEven x = n at hnear ⊢
  have habove := hpos n
  have hbelow := hpos (n - 1)
  have hlt : |x - n| < 1 / 2 := by
    refine hnear.abs_sub_le.lt_of_ne fun heq => ?_
    rcases (abs_eq (by norm_num)).mp heq with hx | hx
    · exact habove (by linarith)
    · exact hbelow (by push_cast; linarith)
  obtain ⟨h1, h2⟩ := abs_lt.mp hlt
  have hup : |y - x| < n + 1 / 2 - x := by
    refine (h n).trans_le (abs_le.mpr ⟨?_, ?_⟩) <;> linarith
  have hdown : |y - x| < x - n + 1 / 2 := by
    refine (h (n - 1)).trans_le (abs_le.mpr ⟨?_, ?_⟩) <;> push_cast <;> linarith
  obtain ⟨_, hy1⟩ := abs_lt.mp hup
  obtain ⟨hy2, _⟩ := abs_lt.mp hdown
  exact halfEven_eq_iff.mpr (.inl (abs_lt.mpr ⟨by linarith, by linarith⟩))

/-! ## Places -/

/-- The nearest number with `places` fractional digits, a half going to the even last digit. -/
def roundTo (places : ℤ) (q : ℚ) : ℚ := halfEven (q * 10 ^ places) * 10 ^ (-places)

/-- A number with no more digits is kept. -/
theorem roundTo_of_eq {places n : ℤ} {q : ℚ} (h : q * 10 ^ places = n) : roundTo places q = q := by
  rw [roundTo, h, halfEven_intCast, ← h, mul_assoc, ← zpow_add₀ (by norm_num),
    add_neg_cancel, zpow_zero, mul_one]

theorem abs_sub_roundTo_le (places : ℤ) (q : ℚ) : |q - roundTo places q| ≤ 10 ^ (-places) / 2 := by
  have hpos : (0 : ℚ) < 10 ^ (-places) := by positivity
  have hq : q = q * 10 ^ places * 10 ^ (-places) := by
    rw [mul_assoc, ← zpow_add₀ (by norm_num), add_neg_cancel, zpow_zero, mul_one]
  have hdiff :
      q - roundTo places q = (q * 10 ^ places - halfEven (q * 10 ^ places)) * 10 ^ (-places) := by
    rw [sub_mul, ← hq, roundTo]
  rw [hdiff, abs_mul, abs_of_pos hpos, div_eq_mul_inv, mul_comm _ (2 : ℚ)⁻¹]
  have := abs_sub_halfEven_le (q * 10 ^ places)
  rw [one_div] at this
  gcongr

theorem Decimal.toRat_round {places : ℤ} {d : Decimal} (h : places < d.scale) :
    (d.round places).toRat = roundTo places d.toRat := by
  have hshift : d.toRat * 10 ^ places =
      d.mantissa.sign * (d.mantissa.natAbs / (10 ^ (d.scale - places).toNat : ℕ)) := by
    have hsign : (d.mantissa : ℚ) = d.mantissa.sign * d.mantissa.natAbs := by
      rw [← Int.cast_natCast, ← Int.cast_mul, d.mantissa.sign_mul_natAbs]
    have hexp : places - d.scale = -((d.scale - places).toNat : ℤ) := by omega
    rw [toRat_mul_zpow, hexp, zpow_neg, zpow_natCast, hsign, ← div_eq_mul_inv, mul_div_assoc]
    push_cast
    rfl
  rw [roundTo, hshift, halfEven_sign_mul, ← cast_roundHalfEven _ (by positivity), round, toRat]
  push_cast
  rfl

end Formula
