import Formula.Number.Rounding

/-!
# Binary floating point, exactly

A float is read as the integer `mantissa * 2 ^ exponent` it stands for, and every operation that
core does not offer works on that exact value and rounds once at the end.

* `FloatFormat.nearest`: the float nearest to a quotient, a half to the even mantissa. Reading
  decimal text and converting integers or decimals are instances of it.
* `FloatFormat.remainder`: the remainder of a division whose quotient is cut off, never rounded.
* `FloatFormat.roundEven`: the nearest whole number, a half to the even one.
* `FloatFormat.convert`: the nearest float of another format.

`Binary64.power` alone rounds on the way: it is a chain of core's products.
-/

namespace Formula

/-- A binary floating point format: bits of the significand with its leading one, and bits of the
exponent field. -/
structure FloatFormat where
  precision : Nat
  exponentBits : Nat

/-- What a bit pattern stands for. -/
inductive FloatValue where
  | finite (negative : Bool) (mantissa : Nat) (exponent : Int)
  | infinite (negative : Bool)
  | nan
deriving Repr, DecidableEq

namespace FloatFormat

/-- The 32-bit format. -/
def single : FloatFormat := ⟨24, 8⟩

/-- The 64-bit format. -/
def double : FloatFormat := ⟨53, 11⟩

/-- Weight of the lowest significand bit of the least positive numbers, as a power of two. -/
def minExponent (f : FloatFormat) : Int := 3 - Int.pow 2 (f.exponentBits - 1) - f.precision

/-- Number of significands between two powers of two. -/
def half (f : FloatFormat) : Nat := Nat.pow 2 (f.precision - 1)

/-- The pattern of positive infinity. -/
def infinity (f : FloatFormat) : Nat := (Nat.pow 2 f.exponentBits - 1) * f.half

/-- The pattern of a quiet not-a-number. -/
def notANumber (f : FloatFormat) : Nat := f.infinity + f.half / 2

/-- The sign bit. -/
def signBit (f : FloatFormat) : Nat := Nat.pow 2 f.exponentBits * f.half

/-- Reads a bit pattern. -/
def decode (f : FloatFormat) (bits : Nat) : FloatValue :=
  let negative := f.signBit ≤ bits
  let magnitude := bits % f.signBit
  let field := magnitude / f.half
  let fraction := magnitude % f.half
  if f.infinity < magnitude then .nan
  else if f.infinity = magnitude then .infinite negative
  else if field = 0 then .finite negative fraction f.minExponent
  else .finite negative (f.half + fraction) (f.minExponent + (field - 1))

/-- The greatest `e` with `2 ^ e ≤ num / den`, for positive arguments. -/
def floorLog2 (num den : Nat) : Int :=
  let e : Int := (Nat.log2 num : Int) - Nat.log2 den
  if den * Nat.pow 2 e.toNat ≤ num * Nat.pow 2 (-e).toNat then e else e - 1

/-- The pattern of the float nearest to `num / den`, a half going to the even mantissa and all that
is too large to infinity. -/
def nearest (f : FloatFormat) (num den : Nat) : Nat :=
  if num = 0 then 0
  else
    let e := max f.minExponent (floorLog2 num den - (f.precision - 1))
    let q := roundHalfEven (num * Nat.pow 2 (-e).toNat) (den * Nat.pow 2 e.toNat)
    if q < f.half then q
    else min f.infinity ((e - f.minExponent + 1).toNat * f.half + (q - f.half))

/-- The pattern of the float nearest to `± num / den`. -/
def signed (f : FloatFormat) (negative : Bool) (num den : Nat) : Nat :=
  (if negative then f.signBit else 0) + f.nearest num den

/-- The pattern of the float nearest to `mantissa * 10 ^ exponent`. Exponents far outside the range
of both formats are settled by the number of digits alone. -/
def ofDecimal (f : FloatFormat) (mantissa : Nat) (exponent : Int) : Nat :=
  let digits : Int := digitCount mantissa + exponent
  if mantissa = 0 ∨ digits < -400 then 0
  else if 400 < digits then f.infinity
  else f.nearest (mantissa * Nat.pow 10 exponent.toNat) (Nat.pow 10 (-exponent).toNat)

/-- Remainder of the division whose quotient is cut off toward zero. It has the sign of the left
operand and is always exact. -/
def remainder (f : FloatFormat) (a b : Nat) : Nat :=
  match f.decode a, f.decode b with
  | .finite .., .infinite _ => a
  | .finite negative m e, .finite _ n g =>
    if n = 0 then f.notANumber
    else
      let low := min e g
      let r := (m * Nat.pow 2 (e - low).toNat) % (n * Nat.pow 2 (g - low).toNat)
      f.signed negative (r * Nat.pow 2 low.toNat) (Nat.pow 2 (-low).toNat)
  | _, _ => f.notANumber

/-- The nearest whole number, a half going to the even one; zero keeps the sign. -/
def roundEven (f : FloatFormat) (a : Nat) : Nat :=
  match f.decode a with
  | .finite negative m e =>
    if 0 ≤ e then a else f.signed negative (roundHalfEven m (Nat.pow 2 (-e).toNat)) 1
  | _ => a

/-- The pattern, in the format `g`, of the float nearest to a float of the format `f`. -/
def convert (f g : FloatFormat) (bits : Nat) : Nat :=
  match f.decode bits with
  | .finite negative m e => g.signed negative (m * Nat.pow 2 e.toNat) (Nat.pow 2 (-e).toNat)
  | .infinite negative => (if negative then g.signBit else 0) + g.infinity
  | .nan => g.notANumber

end FloatFormat

namespace FloatValue

/-- The whole number toward zero, with everything beyond `limit` and the infinities brought to the
nearer of `-limit` and `limit - 1`; not-a-number counts as zero. -/
def truncate (limit : Int) : FloatValue → Int
  | .finite negative m e =>
    let n : Int := (m * Nat.pow 2 e.toNat) / Nat.pow 2 (-e).toNat
    max (-limit) (min (limit - 1) (if negative then -n else n))
  | .infinite negative => if negative then -limit else limit - 1
  | .nan => 0

end FloatValue

/-! ## On core's floats -/

namespace Binary64

/-- The exact value of a `double`. -/
def decode (x : Float) : FloatValue := FloatFormat.double.decode x.toBits.toNat

/-- The `double` with a bit pattern. -/
def ofPattern (bits : Nat) : Float := Float.ofBits (UInt64.ofNat bits)

/-- The `double` of the same value as a `float`. -/
def ofSingle (x : Float32) : Float :=
  ofPattern (FloatFormat.single.convert .double x.toBits.toNat)

/-- The `double` nearest to an integer. -/
def ofInt (i : Int) : Float := ofPattern (FloatFormat.double.signed (i < 0) i.natAbs 1)

/-- The factor `acc` times `base ^ n` by repeated squaring, each product rounded on its own. -/
def powerMul (base acc : Float) (n : Nat) : Float :=
  if n = 0 then acc
  else powerMul (base * base) (if n % 2 = 1 then acc * base else acc) (n / 2)
termination_by n
decreasing_by omega

/-- A power by repeated squaring. Rounded products are not associative, so the order of the
multiplications, from the lowest bit of the exponent up, is part of the meaning: beyond the powers
that a `double` holds exactly the result need not be the nearest one. -/
def power (base : Float) (n : Nat) : Float := powerMul base 1 n

/-- Remainder with the sign of the left operand. -/
def remainder (x y : Float) : Float :=
  ofPattern (FloatFormat.double.remainder x.toBits.toNat y.toBits.toNat)

/-- Nearest whole number, a half to the even one. -/
def roundEven (x : Float) : Float := ofPattern (FloatFormat.double.roundEven x.toBits.toNat)

/-- The greater number; an operand that is not a number is ignored. -/
def maximum (x y : Float) : Float := if x.isNaN || x < y then y else x

/-- The lesser number; an operand that is not a number is ignored. -/
def minimum (x y : Float) : Float := if x.isNaN || y < x then y else x

end Binary64

namespace Binary32

/-- The exact value of a `float`. -/
def decode (x : Float32) : FloatValue := FloatFormat.single.decode x.toBits.toNat

/-- The `float` with a bit pattern. -/
def ofPattern (bits : Nat) : Float32 := Float32.ofBits (UInt32.ofNat bits)

/-- The `float` nearest to a `double`. -/
def ofDouble (x : Float) : Float32 :=
  ofPattern (FloatFormat.double.convert .single x.toBits.toNat)

/-- Remainder with the sign of the left operand. -/
def remainder (x y : Float32) : Float32 :=
  ofPattern (FloatFormat.single.remainder x.toBits.toNat y.toBits.toNat)

/-- The greater number; an operand that is not a number is ignored. -/
def maximum (x y : Float32) : Float32 := if x.isNaN || x < y then y else x

/-- The lesser number; an operand that is not a number is ignored. -/
def minimum (x y : Float32) : Float32 := if x.isNaN || y < x then y else x

end Binary32

end Formula
