import Mathlib

/-!
# Negation of floats

Negating a float changes the sign bit and nothing else, so a double negation gives the float back,
bit for bit: `double_neg_neg` and `single_neg_neg`. Both come from one statement about the bit
patterns of any format, `negBits_negBits`. What is not a number has one pattern only.
-/

namespace Formula.FloatBits

open Float.Model
open Float.Model.UnpackedFloat

variable {spec : Format} {b : BitVec spec.numBits}

theorem sign_neg_neg (s : Sign) : - -s = s := by
  cases s <;> rfl

/-- The pattern of the opposite float. -/
def negBits (b : BitVec spec.numBits) : BitVec spec.numBits :=
  UnpackedFloat.pack spec (UnpackedFloat.unpack spec b).neg

/-- The pattern with the other sign bit. -/
def flipSign (b : BitVec spec.numBits) : BitVec spec.numBits :=
  packComponents spec (-Sign.ofBitVec (unpackSign b)) (unpackExponent b) (unpackMantissa b)

theorem isNaNBits_iff :
    isNaNBits b = true ↔ unpackExponent b = -1#_ ∧ unpackMantissa b ≠ 0#_ := by
  simp [isNaNBits]

theorem isNaNBits_flipSign : isNaNBits (flipSign b) = isNaNBits b := by
  simp [isNaNBits, flipSign]

private theorem flipSign_flipSign : flipSign (flipSign b) = b := by
  have hflip : flipSign (flipSign b) = packComponents spec (- -Sign.ofBitVec (unpackSign b))
      (unpackExponent b) (unpackMantissa b) := by
    simp [flipSign]
  rw [hflip, sign_neg_neg, packComponents_unpackSign_unpackExponent_unpackMantissa]

/-- Of a number, the pattern with the other sign bit is the opposite number. -/
theorem unpack_flipSign (hb : ¬ isNaNBits b) :
    UnpackedFloat.unpack spec (flipSign b) = (UnpackedFloat.unpack spec b).neg := by
  have hsign : Sign.ofBitVec (unpackSign (flipSign b)) = -Sign.ofBitVec (unpackSign b) := by
    simp [flipSign]
  have he : unpackExponent (flipSign b) = unpackExponent b := by simp [flipSign]
  have hm : unpackMantissa (flipSign b) = unpackMantissa b := by simp [flipSign]
  unfold UnpackedFloat.unpack
  simp only [he, hm, hsign]
  split
  · rename_i hexponent
    have hmantissa : unpackMantissa b = 0#_ := by
      by_contra hmantissa
      exact hb (isNaNBits_iff.mpr ⟨hexponent, hmantissa⟩)
    rw [if_pos hmantissa, if_pos hmantissa]
    rfl
  · split
    · split <;> rfl
    · rfl

private theorem negBits_of_isNaN (hb : isNaNBits b) : negBits b = packedNaN spec := by
  obtain ⟨hexponent, hmantissa⟩ := isNaNBits_iff.mp hb
  unfold negBits UnpackedFloat.unpack
  rw [if_pos hexponent, if_neg hmantissa]
  rfl

/-- Negating a number changes its sign bit only. -/
theorem negBits_eq (hspec : 2 ≤ spec.exponentBits) (hb : ¬ isNaNBits b) :
    negBits b = flipSign b := by
  rw [negBits, ← unpack_flipSign hb, pack_unpack _ hspec, isNaNBits_flipSign, if_neg hb]

theorem negBits_negBits (hspec : 2 ≤ spec.exponentBits) (hvalid : spec.Valid b) :
    negBits (negBits b) = b := by
  by_cases hb : isNaNBits b
  · obtain ⟨hexponent, hmantissa⟩ := isNaNBits_iff.mp hb
    rw [negBits_of_isNaN hb, negBits_of_isNaN isNaNBits_packedNaN,
      hvalid.eq_packedNaN hexponent hmantissa]
  · rw [negBits_eq hspec hb, negBits_eq hspec (by rwa [isNaNBits_flipSign]), flipSign_flipSign]

/-- A double negation of a `double` gives it back. -/
theorem double_neg_neg (x : Float) : - -x = x := by
  have h : @negBits .binary64 (negBits x.toModel.toBits.toBitVec) = x.toModel.toBits.toBitVec :=
    negBits_negBits (by decide) x.toModel.valid
  have hbits : (- -x).toModel.toBits = x.toModel.toBits := congrArg UInt64.ofBitVec h
  have hmodel : (- -x).toModel = x.toModel := Float.Model.mk.injEq .. ▸ hbits
  exact congrArg Float.ofModel hmodel

/-- A double negation of a `float` gives it back. -/
theorem single_neg_neg (x : Float32) : - -x = x := by
  have h : @negBits .binary32 (negBits x.toModel.toBits.toBitVec) = x.toModel.toBits.toBitVec :=
    negBits_negBits (by decide) x.toModel.valid
  have hbits : (- -x).toModel.toBits = x.toModel.toBits := congrArg UInt32.ofBitVec h
  have hmodel : (- -x).toModel = x.toModel := Float32.Model.mk.injEq .. ▸ hbits
  exact congrArg Float32.ofModel hmodel

end Formula.FloatBits
