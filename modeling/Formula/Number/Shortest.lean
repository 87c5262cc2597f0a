import Formula.Number.Binary

/-!
# Decimal text of floats

A float is written with the fewest digits that read back to it, the nearest such decimal if there
are two, the greater in magnitude if both are equally near, and always positionally: no exponent is
ever written.

* `FloatFormat.shortest`: the digits. A decimal reads back when it lies between the two midpoints
  next to the float, ends included when the mantissa is even. Grids of powers of ten are tried from
  the coarsest to finer ones, and on each grid only the two neighbours of the value can qualify.
* `positional`: the layout of digits and an exponent of ten.
-/

namespace Formula

/-- The digits of `mantissa * 10 ^ exponent` without an exponent. -/
def positional (mantissa : Nat) (exponent : Int) : String :=
  let digits := Nat.toDigits 10 mantissa
  let places := (-exponent).toNat
  if 0 ≤ exponent then String.ofList (digits ++ List.replicate exponent.toNat '0')
  else if places < digits.length then
    let whole := digits.length - places
    String.ofList (digits.take whole ++ '.' :: digits.drop whole)
  else String.ofList ('0' :: '.' :: List.replicate (places - digits.length) '0' ++ digits)

namespace FloatFormat

/-- The multiple of `10 ^ k` closest to `m * 2 ^ e` that reads back as that float, if there is
one, counted in units of `10 ^ k`. A tie goes up. -/
def gridPoint (f : FloatFormat) (m : Nat) (e k : Int) : Option Nat :=
  -- everything in quarters of the last place
  let scaled (x : Nat) : Nat := x * Nat.pow 2 (e - 2).toNat * Nat.pow 10 (-k).toNat
  let unit := Nat.pow 2 (2 - e).toNat * Nat.pow 10 k.toNat
  let value := scaled (4 * m)
  let high := scaled (4 * m + 2)
  let low := scaled (if m = f.half ∧ f.minExponent < e then 4 * m - 1 else 4 * m - 2)
  let inside (c : Nat) : Bool :=
    if m % 2 = 0 then low ≤ c * unit && c * unit ≤ high else low < c * unit && c * unit < high
  let below := value / unit
  let above := below + 1
  match inside below, inside above with
  | true, true =>
    let down := value - below * unit
    let up := above * unit - value
    some (if down < up then below else above)
  | true, false => some below
  | false, true => some above
  | false, false => none

/-- The fewest digits that read back as `m * 2 ^ e`, with their exponent of ten. -/
def shortest (f : FloatFormat) (m : Nat) (e : Int) : Nat × Int :=
  let top : Int :=
    (digitCount (m * Nat.pow 2 e.toNat) : Int) - digitCount (Nat.pow 2 (-e).toNat) + 1
  let attempt (i : Nat) : Option (Nat × Int) := (f.gridPoint m e (top - i)).map (·, top - i)
  ((List.range 24).findSome? attempt).getD (m * Nat.pow 2 e.toNat, 0)

/-- The text of a bit pattern. -/
def text (f : FloatFormat) (bits : Nat) : String :=
  match f.decode bits with
  | .nan => "NaN"
  | .infinite negative => if negative then "-inf" else "inf"
  | .finite negative m e =>
    let (digits, exponent) := if m = 0 then (0, 0) else f.shortest m e
    (if negative then "-" else "") ++ positional digits exponent

end FloatFormat

/-- The text of a `double`. -/
def Binary64.text (x : Float) : String := FloatFormat.double.text x.toBits.toNat

/-- The text of a `float`. -/
def Binary32.text (x : Float32) : String := FloatFormat.single.text x.toBits.toNat

end Formula
