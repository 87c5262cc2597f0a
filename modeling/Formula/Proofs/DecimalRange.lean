import Formula.Proofs.DecimalLaws
import Formula.Proofs.Outcome

/-!
# The range of decimals

A decimal keeps at most 28 fractional digits and a magnitude of at most `2 ^ 96 - 1`. The rule on
numbers is `Decimal.kept?`: round to 28 places, a half to the even digit, then refuse what is too
large.

`Decimal.fit?` decides most cases by a count of digits, which is a 64-bit difference and traps if it
is none (`Decimal.Arithmetic.fit?_eq_error_iff`). `Decimal.fit?_follows_rule` says that it gives
what the rule says where it does not trap. `Decimal.Arithmetic.Lawful.map_fit?` has it on numbers,
for any lawful rounding, and `Decimal.countFits_of_abs` the condition for numbers known by bounds.
-/

namespace Formula

namespace Decimal

variable {ops : Arithmetic} {d f : Decimal}

/-- The exponent of ten next above the magnitude. -/
def exponent (d : Decimal) : ℤ := digitCount d.mantissa.natAbs - d.scale

theorem abs_toRat (d : Decimal) : |d.toRat| = d.mantissa.natAbs * 10 ^ (-d.scale) := by
  rw [← toRat_abs, toRat, abs]
  simp

theorem abs_toRat_lt (d : Decimal) : |d.toRat| < 10 ^ d.exponent := by
  have hlt : (d.mantissa.natAbs : ℚ) < 10 ^ digitCount d.mantissa.natAbs := by
    exact_mod_cast lt_pow_digitCount d.mantissa.natAbs
  rw [abs_toRat, exponent, sub_eq_add_neg, zpow_add₀ (by norm_num), zpow_natCast]
  exact mul_lt_mul_of_pos_right hlt (ten_zpow_pos _)

theorem le_abs_toRat (h : d.mantissa ≠ 0) : 10 ^ (d.exponent - 1) ≤ |d.toRat| := by
  have hle : (10 : ℚ) ^ (digitCount d.mantissa.natAbs - 1) ≤ d.mantissa.natAbs := by
    exact_mod_cast pow_digitCount_le (Int.natAbs_ne_zero.mpr h)
  have hexp : d.exponent - 1 = (digitCount d.mantissa.natAbs - 1 : ℕ) + -d.scale := by
    have := digitCount_pos d.mantissa.natAbs
    rw [exponent]
    omega
  rw [abs_toRat, hexp, zpow_add₀ (by norm_num), zpow_natCast]
  exact mul_le_mul_of_nonneg_right hle (ten_zpow_pos _).le

/-! ## The rule -/

/-- The number that is kept of `q`: the nearest one with 28 fractional digits, unless that is too
large. -/
def kept? (q : ℚ) : Option ℚ :=
  let r := roundTo maxScale q
  if |r| ≤ limit then some r else none

private theorem kept?_zero : kept? 0 = some 0 := by
  have hround : roundTo maxScale 0 = 0 := roundTo_of_eq (n := 0) (by simp)
  rw [kept?, hround, if_pos]
  norm_num [limit]

theorem kept?_of_large {q : ℚ} (h : 2 ^ 96 ≤ |q|) : kept? q = none := by
  have hnear := abs_sub_roundTo_le maxScale q
  have hpos : (10 : ℚ) ^ (-maxScale) ≤ 1 := zpow_le_one_of_nonpos₀ (by norm_num) (by decide)
  have hle := abs_sub_abs_le_abs_sub q (roundTo maxScale q)
  have hlimit : limit + 1 = 2 ^ 96 := by norm_num [limit]
  exact if_neg (by linarith)

private theorem kept?_of_small {q : ℚ} (h : |q| < 10 ^ (-29 : ℤ)) : kept? q = some 0 := by
  have hzero : halfEven (q * 10 ^ maxScale) = 0 := by
    refine halfEven_eq_iff.mpr (.inl ?_)
    rw [Int.cast_zero, sub_zero, abs_mul, abs_of_pos (ten_zpow_pos _)]
    calc |q| * 10 ^ maxScale < 10 ^ (-29 : ℤ) * 10 ^ maxScale :=
          mul_lt_mul_of_pos_right h (ten_zpow_pos _)
      _ ≤ 1 / 2 := by norm_num [maxScale]
  have hround : roundTo maxScale q = 0 := by rw [roundTo, hzero, Int.cast_zero, zero_mul]
  rw [kept?, hround, if_pos]
  norm_num [limit]

/-! ## The count of digits -/

/-- The count of whole digits fits its 64 bits. -/
def CountFits (d : Decimal) : Prop := -2 ^ 63 ≤ d.exponent ∧ d.exponent < 2 ^ 63
deriving Decidable

theorem wholeDigits_eq (d : Decimal) :
    d.wholeDigits = if d.CountFits then .ok d.exponent else .error .digitCount := rfl

theorem CountFits.wholeDigits_eq (h : d.CountFits) : d.wholeDigits = .ok d.exponent := if_pos h

/-- Numbers that are neither huge nor tiny have a count that fits. -/
theorem countFits_of_abs {k : ℤ} (hk : k < 2 ^ 63) (hlow : 10 ^ (-k) ≤ |d.toRat|)
    (hhigh : |d.toRat| < 10 ^ k) (hne : d.mantissa ≠ 0) : d.CountFits := by
  have habove : -k < d.exponent :=
    (zpow_lt_zpow_iff_right₀ (by norm_num)).mp (hlow.trans_lt (abs_toRat_lt d))
  have hbelow : d.exponent - 1 < k :=
    (zpow_lt_zpow_iff_right₀ (by norm_num)).mp ((le_abs_toRat hne).trans_lt hhigh)
  constructor <;> omega

/-! ## Decimals in range -/

/-- A decimal written with at most 28 places and a magnitude of at most `2 ^ 96 - 1`. -/
def Kept (d : Decimal) : Prop := d.scale ≤ maxScale ∧ |d.toRat| ≤ limit

theorem kept_zero : zero.Kept := ⟨by decide, by norm_num [limit]⟩

namespace Arithmetic

/-- A decimal traps if it is not zero and its digits cannot be counted. -/
theorem fit?_eq_error_iff {trap : Trap} :
    ops.fit? d = .error trap ↔ trap = .digitCount ∧ d.mantissa ≠ 0 ∧ ¬ d.CountFits := by
  unfold fit?
  rw [wholeDigits_eq]
  split_ifs with hzero hcount
  · exact ⟨nofun, fun h => absurd hzero h.2.1⟩
  · simp only []
    split_ifs <;> exact ⟨nofun, fun h => absurd hcount h.2.2⟩
  · exact ⟨fun h => ⟨(Except.error.inj h).symm, hzero, hcount⟩, fun h => h.1 ▸ rfl⟩

/-- What is left after rounding, for the two cases of the rule. -/
theorem Lawful.toRat_places (hops : ops.Lawful) (d : Decimal) :
    (if maxScale < d.scale then ops.round maxScale d else d).toRat = roundTo maxScale d.toRat := by
  split
  · rename_i hscale
    exact hops.toRat_round _ _ hscale
  · rename_i hscale
    exact (roundTo_of_eq (cast_mantissaAt (not_lt.mp hscale)).symm).symm

theorem Lawful.map_nearest? (hops : ops.Lawful) (d : Decimal) :
    (ops.nearest? d).map toRat = kept? d.toRat := by
  simp only [nearest?, kept?, inRange_iff, hops.toRat_places]
  split
  · rw [Option.map_some, hops.toRat_places]
  · rfl

/-- The count of digits decides as the plain rule does. -/
theorem Lawful.map_fit? (hops : ops.Lawful) (h : d.mantissa ≠ 0 → d.CountFits) :
    (ops.fit? d).map (Option.map toRat) = .ok (kept? d.toRat) := by
  unfold fit?
  split
  · rename_i hzero
    rw [toRat_eq_zero.mpr hzero, kept?_zero, Except.map, Option.map_some, toRat_zero]
  · rename_i hne
    simp only [(h hne).wholeDigits_eq]
    split
    · rename_i hmany
      have hlarge : (2 : ℚ) ^ 96 ≤ 10 ^ (29 : ℤ) := by norm_num
      have hle : (2 : ℚ) ^ 96 ≤ |d.toRat| := (hlarge.trans
        (zpow_le_zpow_right₀ (by norm_num) (Int.le_sub_one_of_lt hmany))).trans (le_abs_toRat hne)
      rw [kept?_of_large hle]
      rfl
    · split
      · rename_i hfew
        have hlt : |d.toRat| < 10 ^ (-29 : ℤ) := (abs_toRat_lt d).trans_le
          (zpow_le_zpow_right₀ (by norm_num) (Int.le_of_lt_add_one hfew))
        rw [kept?_of_small hlt, Except.map, Option.map_some, toRat_zero]
      · rw [Except.map, hops.map_nearest?]

theorem Lawful.kept_of_nearest? (hops : ops.Lawful) (h : ops.nearest? d = some f) : f.Kept := by
  obtain ⟨hrange, hf⟩ := Option.ite_none_right_eq_some.mp h
  cases hf
  refine ⟨?_, inRange_iff.mp hrange⟩
  split
  · rename_i hscale
    exact hops.scale_round_le _ _ hscale
  · rename_i hscale
    exact not_lt.mp hscale

theorem Lawful.kept_of_fit? (hops : ops.Lawful) (h : ops.fit? d = .ok (some f)) : f.Kept := by
  unfold fit? at h
  split at h
  · cases h
    exact kept_zero
  · split at h
    · cases h
    · split at h
      · cases h
      · split at h
        · cases h
          exact kept_zero
        · exact hops.kept_of_nearest? (Except.ok.inj h)

end Arithmetic

/-- A decimal in range passes as it is, except that there is one zero. -/
theorem Kept.fit?_eq (h : d.Kept) :
    ops.fit? d = .ok (some (if d.mantissa = 0 then zero else d)) := by
  obtain ⟨hscale, hlimit⟩ := h
  unfold Arithmetic.fit?
  split
  · rfl
  · rename_i hne
    have hlow : -maxScale ≤ d.exponent := by
      have := digitCount_pos d.mantissa.natAbs
      rw [exponent]
      omega
    have hhigh : d.exponent ≤ maxDigits := by
      have hlt : |d.toRat| < 10 ^ maxDigits := hlimit.trans_lt (by norm_num [limit, maxDigits])
      have := (zpow_lt_zpow_iff_right₀ (by norm_num)).mp ((le_abs_toRat hne).trans_lt hlt)
      omega
    have hcount : d.CountFits := by
      rw [maxScale] at hlow
      rw [maxDigits] at hhigh
      constructor <;> omega
    simp only [hcount.wholeDigits_eq, if_neg hhigh.not_gt, if_neg hlow.not_gt, Arithmetic.nearest?,
      if_neg hscale.not_gt, if_pos (inRange_iff.mpr hlimit)]

theorem kept_of_fit? (h : d.fit? = .ok (some f)) : f.Kept := arithmetic_lawful.kept_of_fit? h

/-- Where the count of digits does not trap, `fit?` rounds to 28 places if there are more, and gives
the result, as a number, exactly if it is not too large. Its shortcuts decide as the plain rule
does, and what it gives it leaves as it is. -/
theorem fit?_follows_rule (d : Decimal) (h : d.CountFits) :
    (let r := if 28 < d.scale then roundTo 28 d.toRat else d.toRat
      if |r| ≤ limit then ∃ f, d.fit? = .ok (some f) ∧ f.toRat = r else d.fit? = .ok none) ∧
      d.fit?.map (Option.map toRat) = .ok (d.nearest?.map toRat) ∧
      ∀ f, d.fit? = .ok (some f) → f.fit? = .ok (some (if f.mantissa = 0 then zero else f)) := by
  have hrule : d.fit?.map (Option.map toRat) = .ok (kept? d.toRat) :=
    arithmetic_lawful.map_fit? fun _ => h
  have hnearest : d.nearest?.map toRat = kept? d.toRat := arithmetic_lawful.map_nearest? d
  refine ⟨?_, by rw [hrule, hnearest], fun f hf => (kept_of_fit? hf).fit?_eq⟩
  have hr : roundTo maxScale d.toRat = if 28 < d.scale then roundTo 28 d.toRat else d.toRat := by
    split
    · rfl
    · rename_i hscale
      exact roundTo_of_eq (cast_mantissaAt (not_lt.mp hscale)).symm
  rw [kept?, hr] at hrule
  generalize (if 28 < d.scale then roundTo 28 d.toRat else d.toRat) = r at hrule
  obtain ⟨o, ho, hmap⟩ := Except.map_ok hrule
  simp only [ho]
  split
  · rename_i hle
    rw [if_pos hle] at hmap
    obtain ⟨f, rfl, hf⟩ := Option.map_eq_some_iff.mp hmap
    exact ⟨f, rfl, hf⟩
  · rename_i hgt
    rw [if_neg hgt, Option.map_eq_none_iff] at hmap
    rw [hmap]

/-- Fifteen units of the 29th place are a tie, which goes to the even digit. -/
theorem fit?_follows_rule_tie :
    CountFits ⟨15, 29⟩ ∧ (28 : ℤ) < 29 ∧
      (if |roundTo 28 (toRat ⟨15, 29⟩)| ≤ limit then
        ∃ f, fit? ⟨15, 29⟩ = .ok (some f) ∧ f.toRat = roundTo 28 (toRat ⟨15, 29⟩)
        else fit? ⟨15, 29⟩ = .ok none) ∧
      fit? ⟨15, 29⟩ = .ok (some ⟨2, 28⟩) ∧ fit? ⟨2, 28⟩ = .ok (some ⟨2, 28⟩) := by
  have hcount : CountFits ⟨15, 29⟩ := by decide +kernel
  have hfit : fit? ⟨15, 29⟩ = .ok (some ⟨2, 28⟩) := by rfl
  obtain ⟨hrule, -, hagain⟩ := fit?_follows_rule ⟨15, 29⟩ hcount
  exact ⟨hcount, by norm_num, hrule, hfit, hagain _ hfit⟩

end Decimal

end Formula
