import Formula.Proofs.DecimalConversion
import Formula.Proofs.FloatNegation

/-!
# Conversion to floats

`FloatFormat.Holds f q`: the number `q` is one of the format `f`, a mantissa of its precision times
a power of two in its range. What is nearest to such a number is the number itself
(`FloatFormat.toRat?_decode_signed`), so conversions are exact where they can be.

Core's floats are their bit patterns, and one pattern stands for all that is not a number; all
others are read back as they are (`Binary64.toBits_ofPattern`, `Binary32.toBits_ofPattern`).
-/

namespace Formula

/-! ## Powers of two -/

theorem two_zpow_pos (e : ℤ) : (0 : ℚ) < 2 ^ e := by positivity

/-- A power of two as a quotient, one part of which is one. -/
theorem two_zpow_eq (e : ℤ) : (2 : ℚ) ^ e = (2 ^ e.toNat : ℕ) / (2 ^ (-e).toNat : ℕ) := by
  have he : e = (e.toNat : ℤ) - ((-e).toNat : ℤ) := by omega
  conv_lhs => rw [he]
  rw [zpow_sub₀ (by norm_num), zpow_natCast, zpow_natCast]
  push_cast
  rfl

private theorem two_zpow_log2_le {n : ℕ} (h : n ≠ 0) : (2 : ℚ) ^ (Nat.log2 n : ℤ) ≤ n := by
  rw [zpow_natCast]
  exact_mod_cast Nat.log2_self_le h

private theorem lt_two_zpow_log2 (n : ℕ) : (n : ℚ) < 2 ^ ((Nat.log2 n : ℤ) + 1) := by
  have h : n < 2 ^ (Nat.log2 n + 1) := Nat.lt_log2_self
  have hcast : ((Nat.log2 n : ℤ) + 1) = ((Nat.log2 n + 1 : ℕ) : ℤ) := by push_cast; rfl
  rw [hcast, zpow_natCast]
  exact_mod_cast h

/-- What has `p` bits at a scale is below the power of two that comes after them. -/
theorem lt_of_two_zpow_le {q p : ℕ} {l e : ℤ} (hq : q < 2 ^ p)
    (h : (2 : ℚ) ^ l ≤ q * 2 ^ e) : l < p + e := by
  rw [← zpow_lt_zpow_iff_right₀ (one_lt_two : (1 : ℚ) < 2)]
  calc (2 : ℚ) ^ l ≤ q * 2 ^ e := h
    _ < 2 ^ p * 2 ^ e := mul_lt_mul_of_pos_right (by exact_mod_cast hq) (two_zpow_pos e)
    _ = 2 ^ ((p : ℤ) + e) := by rw [zpow_add₀ (by norm_num), zpow_natCast]

/-- What is below a power of two has the bits up to it at a scale. -/
theorem lt_two_pow_of_mul_lt {q p : ℕ} {l e : ℤ} (hl : l ≤ p + e) (h : (q : ℚ) * 2 ^ e < 2 ^ l) :
    q < 2 ^ p := by
  have hlt : (q : ℚ) * 2 ^ e < 2 ^ p * 2 ^ e := by
    calc (q : ℚ) * 2 ^ e < 2 ^ l := h
      _ ≤ 2 ^ ((p : ℤ) + e) := zpow_le_zpow_right₀ one_le_two hl
      _ = 2 ^ p * 2 ^ e := by rw [zpow_add₀ (by norm_num), zpow_natCast]
  exact_mod_cast lt_of_mul_lt_mul_right hlt (two_zpow_pos e).le

namespace FloatFormat

variable {f : FloatFormat} {num den : ℕ}

/-- Two powers of two that a positive quotient lies between. -/
theorem floorLog2_bounds (hnum : num ≠ 0) (hden : den ≠ 0) :
    (2 : ℚ) ^ floorLog2 num den ≤ num / den ∧ (num : ℚ) / den < 2 ^ (floorLog2 num den + 1) := by
  have hn := two_zpow_log2_le hnum
  have hn' := lt_two_zpow_log2 num
  have hd := two_zpow_log2_le hden
  have hd' := lt_two_zpow_log2 den
  have hdpos : (0 : ℚ) < den := by exact_mod_cast Nat.pos_of_ne_zero hden
  set e : ℤ := (Nat.log2 num : ℤ) - Nat.log2 den with he
  have hupper : (num : ℚ) / den < 2 ^ (e + 1) := by
    calc (num : ℚ) / den < 2 ^ ((Nat.log2 num : ℤ) + 1) / den := div_lt_div_of_pos_right hn' hdpos
      _ ≤ 2 ^ ((Nat.log2 num : ℤ) + 1) / 2 ^ (Nat.log2 den : ℤ) :=
        div_le_div_of_nonneg_left (two_zpow_pos _).le (two_zpow_pos _) hd
      _ = 2 ^ (e + 1) := by rw [← zpow_sub₀ (by norm_num), he]; congr 1; omega
  have hlower : (2 : ℚ) ^ (e - 1) ≤ num / den := by
    calc (2 : ℚ) ^ (e - 1) = 2 ^ (Nat.log2 num : ℤ) / 2 ^ ((Nat.log2 den : ℤ) + 1) := by
          rw [← zpow_sub₀ (by norm_num), he]; congr 1; omega
      _ ≤ num / 2 ^ ((Nat.log2 den : ℤ) + 1) := div_le_div_of_nonneg_right hn (two_zpow_pos _).le
      _ ≤ num / den := div_le_div_of_nonneg_left (Nat.cast_nonneg _) hdpos hd'.le
  have htest : den * Nat.pow 2 e.toNat ≤ num * Nat.pow 2 (-e).toNat ↔ (2 : ℚ) ^ e ≤ num / den := by
    rw [two_zpow_eq, div_le_div_iff₀ (by positivity) hdpos, mul_comm den]
    norm_cast
  unfold floorLog2
  simp only [← he, htest]
  split
  · rename_i hle
    exact ⟨hle, hupper⟩
  · rename_i hlt
    rw [sub_add_cancel]
    exact ⟨hlower, not_le.mp hlt⟩

/-! ## Reading patterns -/

/-- The number is one of the format, up to its sign. -/
def Holds (f : FloatFormat) (q : ℚ) : Prop :=
  ∃ (m : ℕ) (e : ℤ), m < 2 ^ f.precision ∧ f.minExponent ≤ e ∧ e ≤ f.maxExponent ∧ q = m * 2 ^ e

/-- An integer of 64 bits is a number of the format if the precision is enough for what is before
its last zeros. -/
theorem holds_of_lt {m e : ℕ} (hm : m < 2 ^ f.precision) (h : m * 2 ^ e < 2 ^ 64)
    (hmin : f.minExponent ≤ 0) (hmax : 64 ≤ f.maxExponent) : f.Holds (m * 2 ^ e : ℕ) := by
  by_cases hzero : m = 0
  · exact ⟨0, 0, Nat.two_pow_pos _, hmin, by omega, by simp [hzero]⟩
  · have he : e < 64 := by
      rw [← Nat.pow_lt_pow_iff_right (by decide : 1 < 2)]
      exact (Nat.le_mul_of_pos_left _ (Nat.pos_of_ne_zero hzero)).trans_lt h
    exact ⟨m, e, hm, by omega, by omega, by push_cast; rw [zpow_natCast]⟩

/-- What a pattern without its sign bit stands for, with a sign. -/
def reading (f : FloatFormat) (negative : Bool) (magnitude : ℕ) : FloatValue :=
  if f.infinity < magnitude then .nan
  else if f.infinity = magnitude then .infinite negative
  else if magnitude / f.half = 0 then .finite negative (magnitude % f.half) f.minExponent
  else .finite negative (f.half + magnitude % f.half)
    (f.minExponent + ((magnitude / f.half : ℕ) - 1))

theorem decode_eq (bits : ℕ) :
    f.decode bits = f.reading (f.signBit ≤ bits) (bits % f.signBit) := by
  unfold decode reading
  rfl

theorem infinity_lt_signBit : f.infinity < f.signBit :=
  Nat.mul_lt_mul_of_pos_right (Nat.sub_lt (Nat.two_pow_pos _) Nat.one_pos) half_pos

/-- The sign bit is the sign. -/
theorem decode_withSign (negative : Bool) {n : ℕ} (h : n < f.signBit) :
    f.decode ((if negative then f.signBit else 0) + n) = f.reading negative n := by
  rw [decode_eq]
  cases negative with
  | false => simp [Nat.mod_eq_of_lt h, Nat.not_le.mpr h]
  | true => simp [Nat.mod_eq_of_lt h]

theorem half_le_infinity (hbits : 0 < f.exponentBits) : f.half ≤ f.infinity := by
  refine Nat.le_mul_of_pos_left f.half ?_
  have : 2 ^ 1 ≤ 2 ^ f.exponentBits := Nat.pow_le_pow_right (by decide) hbits
  simp only [Nat.pow_eq]
  omega

private theorem reading_subnormal (negative : Bool) {q : ℕ} (h : q < f.half)
    (hbits : 0 < f.exponentBits) :
    f.reading negative q = .finite negative q f.minExponent := by
  have hinfinity := half_le_infinity hbits
  unfold reading
  rw [if_neg (by omega), if_neg (by omega), if_pos (Nat.div_eq_of_lt h), Nat.mod_eq_of_lt h]

private theorem reading_normal (negative : Bool) {k q : ℕ} (hk : 1 ≤ k)
    (hk' : k + 1 < 2 ^ f.exponentBits) (hq : f.half ≤ q) (hq' : q < 2 * f.half) :
    k * f.half + (q - f.half) < f.infinity ∧
      f.reading negative (k * f.half + (q - f.half)) =
        .finite negative q (f.minExponent + (k - 1)) := by
  have hlt : k * f.half + (q - f.half) < f.infinity := by
    calc k * f.half + (q - f.half) < (k + 1) * f.half := by rw [Nat.succ_mul]; omega
      _ ≤ f.infinity := Nat.mul_le_mul_right f.half (Nat.le_sub_one_of_lt hk')
  have hfield : (k * f.half + (q - f.half)) / f.half = k := by
    rw [Nat.add_comm, Nat.add_mul_div_right _ _ half_pos, Nat.div_eq_of_lt (by omega), Nat.zero_add]
  have hfraction : (k * f.half + (q - f.half)) % f.half = q - f.half := by
    rw [Nat.add_comm, Nat.add_mul_mod_self_right, Nat.mod_eq_of_lt (by omega)]
  refine ⟨hlt, ?_⟩
  unfold reading
  rw [if_neg (by omega), if_neg (by omega), hfield, hfraction, if_neg (by omega),
    Nat.add_sub_cancel' hq]

/-! ## The nearest float -/

/-- The exponent that the nearest float to a quotient is looked for with. -/
def scale (f : FloatFormat) (num den : ℕ) : ℤ :=
  max f.minExponent (floorLog2 num den - (f.precision - 1))

/-- A number of the format is a whole number of the least units at its scale, with a leading one
above the least scale. -/
theorem Holds.exists_mantissa (h : f.Holds (num / den)) (hnum : num ≠ 0) (hden : den ≠ 0)
    (hprecision : 0 < f.precision) :
    ∃ q : ℕ, (num : ℚ) / den = q * 2 ^ f.scale num den ∧ q < 2 * f.half ∧
      f.scale num den ≤ f.maxExponent ∧
      (q < f.half → f.scale num den = f.minExponent) := by
  obtain ⟨hlog, hlog'⟩ := floorLog2_bounds hnum hden
  obtain ⟨m, e, hm, hlow, hhigh, hq⟩ := h
  have hscale : f.scale num den ≤ e := by
    have htop := lt_of_two_zpow_le hm (hq ▸ hlog)
    unfold scale
    omega
  have hvalue :
      (num : ℚ) / den = (m * 2 ^ (e - f.scale num den).toNat : ℕ) * 2 ^ f.scale num den := by
    rw [hq]
    push_cast
    rw [mul_assoc, ← zpow_natCast, ← zpow_add₀ (by norm_num)]
    congr 2
    omega
  refine ⟨_, hvalue, ?_, hscale.trans hhigh, fun hlt => ?_⟩
  · rw [two_mul_half hprecision]
    refine lt_two_pow_of_mul_lt ?_ (hvalue ▸ hlog')
    unfold scale
    omega
  · have htop := lt_of_two_zpow_le hlt (hvalue ▸ hlog)
    unfold scale at htop ⊢
    omega

/-- A quotient that is whole at a scale is not rounded. -/
theorem roundHalfEven_scaled {q : ℕ} {e : ℤ} (hden : den ≠ 0) (h : (num : ℚ) / den = q * 2 ^ e) :
    roundHalfEven (num * Nat.pow 2 (-e).toNat) (den * Nat.pow 2 e.toNat) = q := by
  have hpos : 0 < den * Nat.pow 2 e.toNat :=
    Nat.mul_pos (Nat.pos_of_ne_zero hden) (Nat.two_pow_pos _)
  have hdiv : ((num * Nat.pow 2 (-e).toNat : ℕ) : ℚ) / (den * Nat.pow 2 e.toNat : ℕ) = (q : ℤ) := by
    have hden : (den : ℚ) ≠ 0 := by exact_mod_cast hden
    rw [two_zpow_eq] at h
    simp only [Nat.pow_eq]
    push_cast at h ⊢
    field_simp at h ⊢
    linarith
  have hcast := cast_roundHalfEven (num * Nat.pow 2 (-e).toNat) hpos
  rw [hdiv, halfEven_intCast] at hcast
  exact_mod_cast hcast

theorem nearest_le_infinity (hbits : 0 < f.exponentBits) : f.nearest num den ≤ f.infinity := by
  have hinfinity := half_le_infinity hbits
  unfold nearest
  split
  · exact Nat.zero_le _
  · simp only
    split
    · omega
    · exact Nat.min_le_left _ _

theorem nearest_lt_signBit (hbits : 0 < f.exponentBits) : f.nearest num den < f.signBit :=
  (nearest_le_infinity hbits).trans_lt infinity_lt_signBit

theorem signed_lt (negative : Bool) (hbits : 0 < f.exponentBits) :
    f.signed negative num den < 2 * f.signBit := by
  have hlt : f.nearest num den < f.signBit := nearest_lt_signBit hbits
  unfold signed
  split <;> omega

/-- What is nearest to a number of the format is that number. -/
theorem toRat?_decode_signed (negative : Bool) (h : f.Holds (num / den)) (hden : den ≠ 0)
    (hprecision : 0 < f.precision) (hbits : 2 ≤ f.exponentBits) :
    (f.decode (f.signed negative num den)).toRat? =
      some ((if negative then -1 else 1) * ((num : ℚ) / den)) := by
  rw [signed, decode_withSign negative (nearest_lt_signBit (by omega))]
  by_cases hnum : num = 0
  · rw [nearest, if_pos hnum, reading_subnormal negative half_pos (by omega), hnum]
    simp [FloatValue.toRat?]
  obtain ⟨q, hq, hlt, hmax, hleast⟩ := h.exists_mantissa hnum hden hprecision
  have hround := roundHalfEven_scaled hden hq
  have hnearest : f.nearest num den =
      if q < f.half then q
      else min f.infinity
        ((f.scale num den - f.minExponent + 1).toNat * f.half + (q - f.half)) := by
    rw [nearest, if_neg hnum, ← hround]
    rfl
  have hmin : f.minExponent ≤ f.scale num den := le_max_left _ _
  rw [hnearest]
  split
  · rename_i hsub
    rw [reading_subnormal negative hsub (by omega), hq, hleast hsub]
    rfl
  · rename_i hsub
    obtain ⟨k, hk⟩ : ∃ k : ℕ, k = (f.scale num den - f.minExponent + 1).toNat := ⟨_, rfl⟩
    have hk1 : (k : ℤ) + 1 < 2 ^ f.exponentBits := by
      unfold maxExponent at hmax
      omega
    obtain ⟨hfinite, hreading⟩ := reading_normal negative (by omega : 1 ≤ k)
      (by exact_mod_cast hk1) (Nat.not_lt.mp hsub) hlt
    rw [← hk, Nat.min_eq_right hfinite.le, hreading, hq]
    have hexponent : f.minExponent + ((k : ℤ) - 1) = f.scale num den := by omega
    rw [hexponent]
    rfl

/-- A float of another format is the same number if that format has it. -/
theorem toRat?_convert {g : FloatFormat} {bits m : ℕ} {negative : Bool} {e : ℤ}
    (h : f.decode bits = .finite negative m e) (hm : g.Holds (m * 2 ^ e))
    (hprecision : 0 < g.precision) (hbits : 2 ≤ g.exponentBits) :
    f.convert g bits < 2 * g.signBit ∧
      (g.decode (f.convert g bits)).toRat? = (f.decode bits).toRat? := by
  have hvalue : ((m * Nat.pow 2 e.toNat : ℕ) : ℚ) / (Nat.pow 2 (-e).toNat : ℕ) = m * 2 ^ e := by
    rw [two_zpow_eq, mul_div_assoc', Nat.cast_mul]
    rfl
  rw [← hvalue] at hm
  have hdecode := toRat?_decode_signed negative hm (Nat.two_pow_pos _).ne' hprecision hbits
  rw [convert, h, FloatValue.toRat?, ← hvalue]
  exact ⟨signed_lt negative (by omega), hdecode⟩

/-- Positive numbers are converted to such, or to infinity. -/
theorem convert_le_infinity {g : FloatFormat} {n : ℕ} (h : n ≤ f.infinity)
    (hbits : 0 < g.exponentBits) :
    f.convert g n ≤ g.infinity := by
  have hdecode : f.decode n = f.reading false n := by
    have := decode_withSign (f := f) false (h.trans_lt infinity_lt_signBit)
    simpa using this
  have hsigned (num den : ℕ) : g.signed false num den ≤ g.infinity := by
    have : g.nearest num den ≤ g.infinity := nearest_le_infinity hbits
    simpa [signed] using this
  unfold convert
  rw [hdecode, reading, if_neg (Nat.not_lt.mpr h)]
  by_cases hinfinite : f.infinity = n
  · rw [if_pos hinfinite]
    simp
  · rw [if_neg hinfinite]
    by_cases hfield : n / f.half = 0
    · rw [if_pos hfield]
      exact hsigned _ _
    · rw [if_neg hfield]
      exact hsigned _ _

end FloatFormat

/-! ## Core's floats -/

open Float.Model

namespace FloatBits

open Float.Model.UnpackedFloat

variable {spec : Format} {b : BitVec spec.numBits}

/-- The format of a specification. -/
def formatOf (spec : Format) : FloatFormat :=
  ⟨spec.mantissaBitsWithoutImplicit + 1, spec.exponentBits⟩

private theorem toNat_unpackExponent :
    (unpackExponent b).toNat =
      b.toNat / 2 ^ spec.mantissaBitsWithoutImplicit % 2 ^ spec.exponentBits := by
  have hwidth : spec.mantissaBitsWithoutImplicit + spec.exponentBits - 1 -
      spec.mantissaBitsWithoutImplicit + 1 = spec.exponentBits := by
    have := spec.he
    omega
  rw [unpackExponent, BitVec.toNat_cast, BitVec.extractLsb_toNat, Nat.shiftRight_eq_div_pow, hwidth]

private theorem toNat_unpackMantissa :
    (unpackMantissa b).toNat = b.toNat % 2 ^ spec.mantissaBitsWithoutImplicit := by
  have hwidth :
      spec.mantissaBitsWithoutImplicit - 1 - 0 + 1 = spec.mantissaBitsWithoutImplicit := by
    have := spec.hm
    omega
  rw [unpackMantissa, BitVec.toNat_cast, BitVec.extractLsb_toNat, Nat.shiftRight_zero, hwidth]

/-- The patterns of what is not a number are those above infinity. -/
theorem isNaNBits_iff_infinity_lt :
    isNaNBits b = true ↔ (formatOf spec).infinity < b.toNat % (formatOf spec).signBit := by
  have hhalf : (formatOf spec).half = 2 ^ spec.mantissaBitsWithoutImplicit := rfl
  have hsign : (formatOf spec).signBit = 2 ^ spec.exponentBits * (formatOf spec).half := rfl
  have hinfinity : (formatOf spec).infinity = (2 ^ spec.exponentBits - 1) * (formatOf spec).half :=
    rfl
  have hpos := FloatFormat.half_pos (f := formatOf spec)
  have hexponent : (-1#_ : BitVec spec.exponentBits).toNat = 2 ^ spec.exponentBits - 1 := by
    rw [BitVec.neg_one_eq_allOnes, BitVec.toNat_allOnes]
  rw [isNaNBits_iff, ← BitVec.toNat_inj, ne_eq, ← BitVec.toNat_inj, toNat_unpackExponent,
    toNat_unpackMantissa, ← hhalf, hsign, hinfinity, hexponent, BitVec.toNat_ofNat, Nat.zero_mod]
  have hlt := Nat.mod_lt b.toNat (Nat.mul_pos (Nat.two_pow_pos spec.exponentBits) hpos)
  rw [← Nat.mod_mul_left_div_self,
    ← Nat.mod_mul_left_mod b.toNat (2 ^ spec.exponentBits) (formatOf spec).half]
  generalize b.toNat % (2 ^ spec.exponentBits * (formatOf spec).half) = r at hlt ⊢
  generalize (formatOf spec).half = half at hpos hlt ⊢
  have hfield : r / half < 2 ^ spec.exponentBits := (Nat.div_lt_iff_lt_mul hpos).mpr hlt
  have hsplit := Nat.div_add_mod' r half
  constructor
  · rintro ⟨hfield, hfraction⟩
    rw [hfield] at hsplit
    omega
  · intro hr
    have hfield : r / half = 2 ^ spec.exponentBits - 1 :=
      Nat.le_antisymm (Nat.le_sub_one_of_lt hfield) ((Nat.le_div_iff_mul_le hpos).mpr hr.le)
    rw [hfield] at hsplit
    exact ⟨hfield, by omega⟩

theorem decode_of_isNaN (h : isNaNBits b = true) : (formatOf spec).decode b.toNat = .nan := by
  rw [FloatFormat.decode_eq, FloatFormat.reading, if_pos (isNaNBits_iff_infinity_lt.mp h)]

/-- Patterns are kept, up to those of what is not a number. -/
theorem decode_pack_unpack (hspec : 2 ≤ spec.exponentBits) :
    (formatOf spec).decode (UnpackedFloat.pack spec (UnpackedFloat.unpack spec b)).toNat =
      (formatOf spec).decode b.toNat := by
  rw [pack_unpack _ hspec]
  split
  · rename_i hb
    rw [decode_of_isNaN hb, decode_of_isNaN isNaNBits_packedNaN]
  · rfl

/-- The patterns of positive numbers are kept. -/
theorem pack_unpack_of_le (hspec : 2 ≤ spec.exponentBits) (h : b.toNat ≤ (formatOf spec).infinity) :
    UnpackedFloat.pack spec (UnpackedFloat.unpack spec b) = b := by
  rw [pack_unpack _ hspec, if_neg]
  rw [isNaNBits_iff_infinity_lt, Nat.mod_eq_of_lt (h.trans_lt FloatFormat.infinity_lt_signBit)]
  omega

/-- Where the sign bit is not set, the absolute value is the float. -/
theorem pack_abs_unpack (hspec : 2 ≤ spec.exponentBits) (hvalid : spec.Valid b)
    (hsign : unpackSign b = 0#1) :
    UnpackedFloat.pack spec (UnpackedFloat.unpack spec b).abs = b := by
  have habs : (UnpackedFloat.unpack spec b).abs = UnpackedFloat.unpack spec b := by
    unfold UnpackedFloat.unpack
    simp only [hsign, Sign.ofBitVec]
    split
    · split <;> rfl
    · split
      · split <;> rfl
      · rfl
  rw [habs, pack_unpack _ hspec]
  split
  · rename_i hb
    obtain ⟨hexponent, hmantissa⟩ := isNaNBits_iff.mp hb
    exact (hvalid.eq_packedNaN hexponent hmantissa).symm
  · rfl

end FloatBits

namespace Binary64

theorem toBits_ofPattern {n : ℕ} (h : n ≤ FloatFormat.double.infinity) :
    (ofPattern n).toBits.toNat = n := by
  have hbits : (UInt64.ofNat n).toBitVec.toNat = n :=
    UInt64.toNat_ofNat_of_lt (h.trans_lt (by decide))
  have hpack :=
    @FloatBits.pack_unpack_of_le .binary64 (UInt64.ofNat n).toBitVec (by decide) (hbits.symm ▸ h)
  exact (congrArg BitVec.toNat hpack).trans hbits

/-- The `double` of a pattern is read as the pattern. -/
theorem decode_ofPattern {n : ℕ} (h : n < 2 ^ 64) :
    decode (ofPattern n) = FloatFormat.double.decode n := by
  have hbits : (UInt64.ofNat n).toBitVec.toNat = n := UInt64.toNat_ofNat_of_lt h
  have hdecode := @FloatBits.decode_pack_unpack .binary64 (UInt64.ofNat n).toBitVec (by decide)
  rw [hbits] at hdecode
  exact hdecode

/-- Every `float` is a `double`. -/
theorem toRat?_ofSingle (x : Float32) :
    (decode (ofSingle x)).toRat? = (Binary32.decode x).toRat? := by
  unfold ofSingle
  cases hx : Binary32.decode x with
  | finite negative m e =>
    obtain ⟨hm, hlow, hhigh⟩ := FloatFormat.decode_bounds (by decide) (by decide) hx
    have hlow : -149 ≤ e := hlow
    have hhigh : e ≤ 104 := hhigh
    have hholds : FloatFormat.double.Holds (m * 2 ^ e) :=
      ⟨m, e, hm.trans (by decide), show -1074 ≤ e by omega, show e ≤ 971 by omega, rfl⟩
    obtain ⟨hlt, hvalue⟩ := FloatFormat.toRat?_convert hx hholds (by decide) (by decide)
    rw [decode_ofPattern hlt, hvalue]
    exact congrArg FloatValue.toRat? hx
  | infinite negative =>
    have hconvert : FloatFormat.single.convert .double x.toBits.toNat =
        (if negative then FloatFormat.double.signBit else 0) + FloatFormat.double.infinity := by
      rw [FloatFormat.convert, show FloatFormat.single.decode _ = _ from hx]
    rw [hconvert, decode_ofPattern (by cases negative <;> decide),
      FloatFormat.decode_withSign negative FloatFormat.infinity_lt_signBit, FloatFormat.reading,
      if_neg (Nat.lt_irrefl _), if_pos rfl]
  | nan =>
    have hconvert :
        FloatFormat.single.convert .double x.toBits.toNat = FloatFormat.double.notANumber := by
      rw [FloatFormat.convert, show FloatFormat.single.decode _ = _ from hx]
    rw [hconvert, decode_ofPattern (by decide)]
    rfl

/-- The integers that are `double`s are converted to themselves. -/
theorem toRat?_ofInt {i : ℤ} (h : FloatFormat.double.Holds i.natAbs) :
    (decode (ofInt i)).toRat? = some (i : ℚ) := by
  have hholds : FloatFormat.double.Holds (i.natAbs / (1 : ℕ)) := by rwa [Nat.cast_one, div_one]
  rw [ofInt, decode_ofPattern (FloatFormat.signed_lt _ (by decide)),
    FloatFormat.toRat?_decode_signed (i < 0) hholds one_ne_zero (by decide) (by decide)]
  have hsign : (i : ℚ) = (if decide (i < 0) = true then -1 else 1) * (i.natAbs : ℚ) := by
    by_cases hi : i < 0
    · rw [decide_eq_true hi, if_pos rfl, Nat.cast_natAbs, abs_of_neg hi]
      simp
    · rw [decide_eq_false hi, if_neg Bool.false_ne_true, Nat.cast_natAbs,
        abs_of_nonneg (not_lt.mp hi), one_mul]
  rw [hsign, Nat.cast_one, div_one]

end Binary64

namespace Binary32

theorem toBits_ofPattern {n : ℕ} (h : n ≤ FloatFormat.single.infinity) :
    (ofPattern n).toBits.toNat = n := by
  have hbits : (UInt32.ofNat n).toBitVec.toNat = n :=
    UInt32.toNat_ofNat_of_lt (h.trans_lt (by decide))
  have hpack :=
    @FloatBits.pack_unpack_of_le .binary32 (UInt32.ofNat n).toBitVec (by decide) (hbits.symm ▸ h)
  exact (congrArg BitVec.toNat hpack).trans hbits

/-- The `float` of a pattern is read as the pattern. -/
theorem decode_ofPattern {n : ℕ} (h : n < 2 ^ 32) :
    decode (ofPattern n) = FloatFormat.single.decode n := by
  have hbits : (UInt32.ofNat n).toBitVec.toNat = n := UInt32.toNat_ofNat_of_lt h
  have hdecode := @FloatBits.decode_pack_unpack .binary32 (UInt32.ofNat n).toBitVec (by decide)
  rw [hbits] at hdecode
  exact hdecode

/-- A `double` that is a `float` is converted to itself. -/
theorem toRat?_ofDouble {x : Float} {q : ℚ} (hx : (Binary64.decode x).toRat? = some q)
    (h : FloatFormat.single.Holds |q|) : (decode (ofDouble x)).toRat? = some q := by
  unfold ofDouble
  cases hdecode : Binary64.decode x with
  | infinite | nan =>
    rw [hdecode] at hx
    cases hx
  | finite negative m e =>
    have hq : |q| = m * 2 ^ e := by
      rw [hdecode] at hx
      cases hx
      exact FloatValue.abs_signed negative m e
    rw [hq] at h
    obtain ⟨hlt, hvalue⟩ := FloatFormat.toRat?_convert hdecode h (by decide) (by decide)
    rw [decode_ofPattern hlt, hvalue]
    exact hx

/-- Where the sign bit is not set, the absolute value is the number. -/
theorem abs_of_toBits_lt {x : Float32} (h : x.toBits.toNat < 2 ^ 31) : x.abs = x := by
  have hsign : @UnpackedFloat.unpackSign .binary32 x.toModel.toBits.toBitVec = 0#1 := by
    apply BitVec.eq_of_toNat_eq
    rw [UnpackedFloat.unpackSign, BitVec.toNat_cast, BitVec.extractLsb_toNat,
      Nat.shiftRight_eq_div_pow]
    show x.toBits.toNat / 2 ^ 31 % 2 = 0
    omega
  have habs := @FloatBits.pack_abs_unpack .binary32 _ (by decide) x.toModel.valid hsign
  have hbits : x.abs.toModel.toBits = x.toModel.toBits := congrArg UInt32.ofBitVec habs
  have hmodel : x.abs.toModel = x.toModel := Float32.Model.mk.injEq .. ▸ hbits
  exact congrArg Float32.ofModel hmodel

/-- The `float` of an integer that is not negative is its own absolute value. -/
theorem abs_ofDouble_ofInt {i : ℤ} (h : 0 ≤ i) :
    (ofDouble (Binary64.ofInt i)).abs = ofDouble (Binary64.ofInt i) := by
  have hdouble : FloatFormat.double.signed (i < 0) i.natAbs 1 ≤ FloatFormat.double.infinity := by
    have : FloatFormat.double.nearest i.natAbs 1 ≤ FloatFormat.double.infinity :=
      FloatFormat.nearest_le_infinity (by decide)
    simpa [FloatFormat.signed, not_lt.mpr h] using this
  have hsingle := FloatFormat.convert_le_infinity (g := .single) hdouble (by decide)
  apply abs_of_toBits_lt
  rw [ofDouble, Binary64.ofInt, Binary64.toBits_ofPattern hdouble, toBits_ofPattern hsingle]
  exact hsingle.trans_lt (by decide)

end Binary32

end Formula
