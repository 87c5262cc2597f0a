import Formula.Number.Shortest
import Formula.Trap

/-!
# Decimals

A decimal is an integer mantissa and a scale, `mantissa * 10 ^ -scale`. Sums, products and
remainders are exact; a quotient is carried to one hundred digits. The same number has many scales,
and its text shows the places of its own, so each operation says at which scale its result is.

What the language keeps of a result is decided apart, by `Decimal.fit?`: at most 28 places, a half
to the even neighbour, and a magnitude below `2 ^ 96`.

* `Decimal.Arithmetic` is what results are computed with; `Decimal.arithmetic` are the operations
  of this module.
* `Decimal.Arithmetic.fit?` looks at the number of digits before it rescales anything. That count is
  a 64-bit difference, and a decimal for which it is none traps.
* `Decimal.Arithmetic.nearest?` is the plain rule: round, then compare with the greatest decimal.
-/

namespace Formula

/-- The number `mantissa * 10 ^ -scale`. -/
structure Decimal where
  mantissa : Int
  scale : Int
deriving Repr, DecidableEq, Inhabited

namespace Decimal

/-- Zero. -/
def zero : Decimal := ⟨0, 0⟩

/-- A whole number. -/
def ofInt (i : Int) : Decimal := ⟨i, 0⟩

/-- The mantissa of the same number at a scale that is no smaller. -/
def mantissaAt (d : Decimal) (scale : Int) : Int :=
  d.mantissa * Int.pow 10 (scale - d.scale).toNat

/-- Order of the numbers. -/
def compare (a b : Decimal) : Ordering :=
  let scale := max a.scale b.scale
  Ord.compare (a.mantissaAt scale) (b.mantissaAt scale)

/-- Equality of the numbers; the scale does not count. -/
def equal (a b : Decimal) : Bool := a.compare b == .eq

/-- The greater number, the second of two equal ones. -/
def maximum (a b : Decimal) : Decimal := if a.compare b == .gt then a else b

/-- The lesser number, the first of two equal ones. -/
def minimum (a b : Decimal) : Decimal := if a.compare b == .gt then b else a

/-- The opposite number. -/
def neg (d : Decimal) : Decimal := ⟨-d.mantissa, d.scale⟩

/-- The magnitude. -/
def abs (d : Decimal) : Decimal := ⟨d.mantissa.natAbs, d.scale⟩

/-- Cuts trailing zeros off a positive number and counts them. -/
def stripZeros (n : Nat) : Nat × Nat :=
  if _h : n ≠ 0 ∧ n % 10 = 0 then
    let (m, zeros) := stripZeros (n / 10)
    (m, zeros + 1)
  else (n, 0)
termination_by n
decreasing_by omega

/-- The same number with the shortest mantissa. -/
def normalize (d : Decimal) : Decimal :=
  if d.mantissa = 0 then zero
  else
    let (m, zeros) := stripZeros d.mantissa.natAbs
    ⟨d.mantissa.sign * m, d.scale - zeros⟩

/-! ## Arithmetic -/

/-- Places that a zero can add to the other operand of a sum. -/
def zeroPlaces : Int := 15

/-- The number at a scale that is no smaller. -/
def rescale (d : Decimal) (scale : Int) : Decimal := ⟨d.mantissaAt scale, scale⟩

/-- The sum of a number and a zero of the scale `scale`: the number itself, with some of the places
of the zero. -/
def addZero (d : Decimal) (scale : Int) : Decimal :=
  d.rescale (d.scale + max 0 (min zeroPlaces (scale - d.scale)))

/-- The exact sum, at the greater of the two scales unless an operand is zero. -/
def add (a b : Decimal) : Decimal :=
  if b.mantissa = 0 then a.addZero b.scale
  else if a.mantissa = 0 then b.addZero a.scale
  else
    let scale := max a.scale b.scale
    ⟨a.mantissaAt scale + b.mantissaAt scale, scale⟩

/-- The exact difference, at the greater of the two scales. -/
def sub (a b : Decimal) : Decimal :=
  let scale := max a.scale b.scale
  ⟨a.mantissaAt scale - b.mantissaAt scale, scale⟩

/-- Whether the number is seen to be one: its mantissa is a power of ten of at most 128 bits. -/
def isOne (d : Decimal) : Bool :=
  0 ≤ d.scale && d.mantissa < Int.pow 2 128 && d.mantissa = Int.pow 10 d.scale.toNat

/-- The exact product. A factor one leaves the other, with its shortest mantissa. -/
def mul (a b : Decimal) : Decimal :=
  if a.isOne then b.normalize
  else if b.isOne then a.normalize
  else ⟨a.mantissa * b.mantissa, a.scale + b.scale⟩

/-- Number of significant digits a quotient is carried to. -/
def quotientDigits : Nat := 100

/-- Carries a division on: appends the digits of `remainder / den` to `quotient` until it is exact
or `room` digits are written, and counts them. -/
def carryDigits (den : Nat) : Nat → Nat → Nat → Nat × Nat × Nat
  | 0, quotient, remainder => (quotient, remainder, 0)
  | room + 1, quotient, remainder =>
    if remainder = 0 then (quotient, remainder, 0)
    else
      let (q, r, places) := carryDigits den room
        (quotient * 10 + remainder * 10 / den) (remainder * 10 % den)
      (q, r, places + 1)

/-- The quotient of positive mantissas: the numerator is first brought to at least the denominator,
then digits are carried, and the digit after the last one rounds up from five. -/
def divNat (num den : Nat) (scale : Int) : Decimal :=
  let shift := digitCount den - digitCount num
  let lead := if num * Nat.pow 10 shift < den then shift + 1 else shift
  let start := num * Nat.pow 10 lead
  let room := quotientDigits - digitCount (start / den)
  let (q, r, places) := carryDigits den room (start / den) (start % den)
  ⟨if r * 10 / den < 5 then q else q + 1, scale + lead + places⟩

/-- The quotient to one hundred significant digits, for a divisor other than zero. -/
def div (a b : Decimal) : Decimal :=
  if a.mantissa = 0 ∨ b.isOne then a
  else if a.mantissa = b.mantissa then ⟨1, a.scale - b.scale⟩
  else
    let q := divNat a.mantissa.natAbs b.mantissa.natAbs (a.scale - b.scale)
    ⟨a.mantissa.sign * b.mantissa.sign * q.mantissa, q.scale⟩

/-- The remainder of the division whose quotient is cut off toward zero, for a divisor other than
zero. It has the sign of `a`. -/
def rem (a b : Decimal) : Decimal :=
  let scale := max a.scale b.scale
  ⟨(a.mantissaAt scale).tmod (b.mantissaAt scale), scale⟩

/-! ## Range -/

/-- Fractional digits a decimal keeps. -/
def maxScale : Int := 28

/-- Whole digits of the greatest decimal. -/
def maxDigits : Int := 29

/-- The greatest decimal. -/
def greatest : Decimal := ofInt (Int.pow 2 96 - 1)

/-- Rounds a decimal that has more than `places` fractional digits to that many, a half to the even
neighbour. -/
def round (places : Int) (d : Decimal) : Decimal :=
  ⟨d.mantissa.sign * roundHalfEven d.mantissa.natAbs (Nat.pow 10 (d.scale - places).toNat), places⟩

/-- Whether the magnitude is at most that of the greatest decimal. -/
def inRange (d : Decimal) : Bool := d.abs.compare greatest != .gt

/-- Number of whole digits. -/
def wholeDigits (d : Decimal) : Except Trap Int :=
  signedWord .digitCount (digitCount d.mantissa.natAbs - d.scale)

/-- The operations that results are computed with before they are brought into range. -/
structure Arithmetic where
  add : Decimal → Decimal → Decimal
  sub : Decimal → Decimal → Decimal
  mul : Decimal → Decimal → Decimal
  /-- The quotient, for a divisor other than zero. -/
  div : Decimal → Decimal → Decimal
  /-- The remainder, for a divisor other than zero. -/
  rem : Decimal → Decimal → Decimal
  /-- Rounds a decimal that has more than `places` fractional digits. -/
  round (places : Int) : Decimal → Decimal

namespace Arithmetic

/-- The plain rule of the range: round to 28 places, then refuse what is too large. -/
def nearest? (ops : Arithmetic) (d : Decimal) : Option Decimal :=
  let r := if maxScale < d.scale then ops.round maxScale d else d
  if r.inRange then some r else none

/-- Brings a decimal into range. Its number of whole digits settles most cases without rescaling:
too many are refused, and far too few are zero. -/
def fit? (ops : Arithmetic) (d : Decimal) : Except Trap (Option Decimal) :=
  if d.mantissa = 0 then .ok (some zero)
  else
    match d.wholeDigits with
    | .error trap => .error trap
    | .ok digits =>
      if maxDigits < digits then .ok none
      else if digits < -maxScale then .ok (some zero)
      else .ok (ops.nearest? d)

end Arithmetic

/-- The operations of this module. -/
def arithmetic : Arithmetic := ⟨add, sub, mul, div, rem, round⟩

/-- The plain rule, with the rounding of this module. -/
def nearest? (d : Decimal) : Option Decimal := arithmetic.nearest? d

/-- Brings a decimal into range, with the rounding of this module. -/
def fit? (d : Decimal) : Except Trap (Option Decimal) := arithmetic.fit? d

/-! ## Other forms -/

/-- The whole number toward zero. -/
def truncate (d : Decimal) : Int :=
  (d.mantissa * Int.pow 10 (-d.scale).toNat).tdiv (Int.pow 10 d.scale.toNat)

/-- The exact value of a finite float; the mantissa is as short as the exponent of two allows. -/
def ofFinite (negative : Bool) (m : Nat) (e : Int) : Decimal :=
  let sign : Int := if negative then -1 else 1
  if m = 0 then zero
  else if 0 ≤ e then ⟨sign * (m * Nat.pow 2 e.toNat : Nat), 0⟩
  else
    let common := Nat.gcd m (Nat.pow 2 (-e).toNat)
    let places := (-e).toNat - Nat.log2 common
    ⟨sign * (m / common * Nat.pow 5 places : Nat), places⟩

/-- The exact value of a float, if it is finite. -/
def ofFloat? : FloatValue → Option Decimal
  | .finite negative m e => some (ofFinite negative m e)
  | _ => none

/-- Digits of a mantissa that are kept in any case when it becomes a `double`. -/
def floatDigits : Nat := 25

/-- Digits that are dropped at a time from a longer mantissa. -/
def floatChunk : Nat := 19

/-- Number of trailing digits that are dropped before a mantissa becomes a `double`: whole chunks
of what its length in bits promises beyond the kept digits. -/
def droppedDigits (m : Nat) : Nat :=
  let promised := digitCount (Nat.pow 2 (Nat.log2 m + 1)) - 1
  (promised - floatDigits) / floatChunk * floatChunk

/-- The number as a `double`. A whole number at scale zero is rounded to the nearest one. At any
other scale the digits that are too many are dropped; what is left is rounded to the nearest if it
still has places, otherwise mantissa and power of ten are rounded on their own and multiplied. -/
def toFloat (d : Decimal) : Float :=
  let m := d.mantissa.natAbs
  let dropped := if d.scale = 0 then 0 else droppedDigits m
  let kept := m / Nat.pow 10 dropped
  let scale := d.scale - dropped
  let magnitude :=
    if m = 0 then 0
    else if 0 < scale then Binary64.ofPattern (FloatFormat.double.ofDecimal kept (-scale))
    else Binary64.ofInt kept * Binary64.power 10 (-scale).toNat
  if d.mantissa < 0 then -magnitude else magnitude

/-- Zeros between the point and the first digit that are written out. -/
def leadingZeroLimit : Nat := 5

/-- Zeros after the last digit of a mantissa that are written out. -/
def trailingZeroLimit : Nat := 15

/-- The text of a positive mantissa at a scale: all its digits, positionally unless too many zeros
would have to be written before or after them. -/
def magnitudeText (m : Nat) (scale : Int) : String :=
  let digits := Nat.toDigits 10 m
  if (digits.length + leadingZeroLimit : Nat) < scale then
    let fraction := if digits.length = 1 then [] else '.' :: digits.drop 1
    String.ofList (digits.take 1 ++ fraction) ++ "E" ++ toString ((digits.length : Int) - 1 - scale)
  else if trailingZeroLimit < -scale then
    String.ofList digits ++ "e+" ++ toString (-scale)
  else positional m (-scale)

/-- The text of a decimal. -/
def text (d : Decimal) : String :=
  if d.mantissa = 0 then "0"
  else (if d.mantissa < 0 then "-" else "") ++ magnitudeText d.mantissa.natAbs d.scale

/-- The decimal that `whole.fraction` times a power of ten spells, digit for digit. The scale is a
64-bit number: what does not fit is refused. -/
def ofDigits? (digits : Nat) (places : Nat) (exponent : Int) : Option Decimal :=
  let scale := (places : Int) - exponent
  if -Int.pow 2 63 ≤ scale ∧ scale < Int.pow 2 63 then some ⟨digits, scale⟩ else none

end Decimal

end Formula
