import Formula.Grid
import Formula.Number.Decimal
import Formula.Text.Quoted

/-!
# Values

What flows through a bound expression. An integer carries its kind and the bits of that width, so
every integer value is in range by construction.

* `Value.convert`: explicit numeric conversion. Integers keep their low bits, fractions are cut off
  toward zero, and everything meant for `float` passes through `double`.
* `Value.arith`, `Value.negate`: arithmetic on operands of one kind.
-/

namespace Formula

/-- A value. An object belongs to the host and is only ever compared by its identity. -/
inductive Value where
  | null
  | bool (b : Bool)
  | int (k : IntKind) (x : BitVec k.width)
  | f32 (x : Float32)
  | f64 (x : Float)
  | decimal (d : Decimal)
  | str (s : String)
  | array (grid : Grid Value)
  | object (identity : Nat) (typeName : String) (fields : List (String × Value))

namespace Value

instance : Inhabited Value := ⟨.null⟩

/-- The value of an integer kind congruent to `i`. -/
def ofInt (k : IntKind) (i : Int) : Value := .int k (k.wrap i)

/-- The array of one dimension. -/
def ofList (items : List Value) : Value := .array (.ofList items)

/-- The kind of a number. -/
def kind? : Value → Option Kind
  | .int k _ => some (.int k)
  | .f32 _ => some .f32
  | .f64 _ => some .f64
  | .decimal _ => some .decimal
  | _ => none

/-- What the value is called in messages. -/
def typeName : Value → String
  | .null => "null"
  | .bool _ => "bool"
  | .int k _ => (Kind.int k).keyword
  | .f32 _ => Kind.f32.keyword
  | .f64 _ => Kind.f64.keyword
  | .decimal _ => Kind.decimal.keyword
  | .str _ => "string"
  | .array _ => "array"
  | .object .. => "object"

/-- The text, if the value is one. -/
def text? : Value → Option String
  | .str s => some s
  | _ => none

/-- The truth value, if the value is one. -/
def truth? : Value → Option Bool
  | .bool b => some b
  | _ => none

/-! ## Numbers -/

/-- The three ways a number is stored, regardless of its width. -/
inductive Number where
  | int (i : Int)
  | float (x : Float)
  | decimal (d : Decimal)

/-- The number of a numeric value. -/
def number? : Value → Option Number
  | .int k x => some (.int (k.toInt x))
  | .f32 x => some (.float (Binary64.ofSingle x))
  | .f64 x => some (.float x)
  | .decimal d => some (.decimal d)
  | _ => none

namespace Number

/-- The nearest `double`. -/
def toFloat : Number → Float
  | .int i => Binary64.ofInt i
  | .float x => x
  | .decimal d => d.toFloat

/-- Integers pass through 128 signed bits: this many on either side of zero. -/
def wideLimit : Int := Int.pow 2 127

/-- The whole number toward zero. A float outside the wide range is brought to its ends, a decimal
outside of it has none. -/
def truncate? : Number → Option Int
  | .int i => some i
  | .float x => some ((Binary64.decode x).truncate wideLimit)
  | .decimal d =>
    let i := d.truncate
    if -wideLimit ≤ i ∧ i < wideLimit then some i else none

/-- The decimal of the same value, rounded into range if it comes from a float. -/
def toDecimal : Number → Except RunError Decimal
  | .int i => .ok (.ofInt i)
  | .float x =>
    match Decimal.ofFloat? (Binary64.decode x) with
    | none => .error (.invalidValue "finite number" (Binary64.text x))
    | some d =>
      match d.fit? with
      | .error trap => .error (.trapped trap)
      | .ok (some r) => .ok r
      | .ok none => .error (.overflow .decimal)
  | .decimal d => .ok d

end Number

/-- Any number as a `double`. -/
def toFloat? (v : Value) : Option Float := v.number?.map Number.toFloat

/-- Any number as an integer of 64 bits: cut off toward zero, then its low bits. -/
def toInt64? (v : Value) : Option Int :=
  (v.number?.bind Number.truncate?).map fun i => i.bmod (Nat.pow 2 64)

/-- Explicit conversion to a numeric kind. -/
def convert (kind : Kind) (v : Value) : Except RunError Value :=
  match v.number? with
  | none => .error (.invalidValue kind.keyword v.typeName)
  | some n =>
    match kind with
    | .f32 => .ok (.f32 (Binary32.ofDouble n.toFloat))
    | .f64 => .ok (.f64 n.toFloat)
    | .decimal => n.toDecimal.map .decimal
    | .int k =>
      match n.truncate? with
      | some i => .ok (.ofInt k i)
      | none => .error (.overflow kind)

/-- Unary minus. Unsigned integers have none. -/
def negate : Value → Except RunError Value
  | .int k x =>
    if k.signed then .ok (.ofInt k (-k.toInt x))
    else .error (.invalidValue "signed number" (Kind.int k).keyword)
  | .f32 x => .ok (.f32 (-x))
  | .f64 x => .ok (.f64 (-x))
  | .decimal d => .ok (.decimal d.neg)
  | v => .error (.invalidValue "signed number" v.typeName)

/-- Arithmetic on integers of one kind. Results wrap around; only a power leaves the integers. -/
def intArith (op : ArithOp) (k : IntKind) (a b : Int) : Except RunError Value :=
  match op with
  | .add => .ok (.ofInt k (a + b))
  | .sub => .ok (.ofInt k (a - b))
  | .mul => .ok (.ofInt k (a * b))
  | .div => if b = 0 then .error .divideByZero else .ok (.ofInt k (a.tdiv b))
  | .rem => if b = 0 then .error .divideByZero else .ok (.ofInt k (a.tmod b))
  | .pow => .ok (.f64 ((Binary64.ofInt a).pow (Binary64.ofInt b)))

/-- Arithmetic on `float`. -/
def singleArith (op : ArithOp) (a b : Float32) : Float32 :=
  match op with
  | .add => a + b
  | .sub => a - b
  | .mul => a * b
  | .div => a / b
  | .rem => Binary32.remainder a b
  | .pow => a.pow b

/-- Arithmetic on `double`. -/
def doubleArith (op : ArithOp) (a b : Float) : Float :=
  match op with
  | .add => a + b
  | .sub => a - b
  | .mul => a * b
  | .div => a / b
  | .rem => Binary64.remainder a b
  | .pow => a.pow b

/-- Brings the exact result of a decimal operation into range. -/
def fitted (ops : Decimal.Arithmetic) (d : Decimal) : Except RunError Value :=
  match ops.fit? d with
  | .error trap => .error (.trapped trap)
  | .ok (some r) => .ok (.decimal r)
  | .ok none => .error (.overflow .decimal)

/-- Arithmetic on decimals. Results are brought into range; a power leaves the decimals. -/
def decimalArith (ops : Decimal.Arithmetic) (op : ArithOp) (a b : Decimal) :
    Except RunError Value :=
  match op with
  | .add => fitted ops (ops.add a b)
  | .sub => fitted ops (ops.sub a b)
  | .mul => fitted ops (ops.mul a b)
  | .div => if b.mantissa = 0 then .error .divideByZero else fitted ops (ops.div a b)
  | .rem => if b.mantissa = 0 then .error .divideByZero else fitted ops (ops.rem a b)
  | .pow => .ok (.f64 (a.toFloat.pow b.toFloat))

/-- Arithmetic on two numbers of one kind. -/
def arith (op : ArithOp) (l r : Value) : Except RunError Value :=
  let mismatch : Except RunError Value :=
    .error (.invalidValue "operands of one numeric kind"
      (l.typeName ++ " " ++ op.symbol.toString ++ " " ++ r.typeName))
  match l, r with
  | .int k a, .int k' b => if k = k' then intArith op k (k.toInt a) (k'.toInt b) else mismatch
  | .f32 a, .f32 b => .ok (.f32 (singleArith op a b))
  | .f64 a, .f64 b => .ok (.f64 (doubleArith op a b))
  | .decimal a, .decimal b => decimalArith Decimal.arithmetic op a b
  | _, _ => mismatch

/-! ## Equality and text -/

mutual

/-- Equality of values: of one kind and equal as numbers or texts, arrays item by item, objects by
identity. -/
def equal : Value → Value → Bool
  | .null, .null => true
  | .bool a, .bool b => a == b
  | .int k a, .int k' b => k == k' && k.toInt a == k'.toInt b
  | .f32 a, .f32 b => a == b
  | .f64 a, .f64 b => a == b
  | .decimal a, .decimal b => a.equal b
  | .str a, .str b => a == b
  | .array ⟨dims, items⟩, .array ⟨dims', items'⟩ => dims == dims' && equalAll items items'
  | .object a _ _, .object b _ _ => a == b
  | _, _ => false

/-- Equality item by item. -/
def equalAll : List Value → List Value → Bool
  | [], [] => true
  | a :: as, b :: bs => equal a b && equalAll as bs
  | _, _ => false

end

mutual

/-- The diagnostic text of a value. -/
def inspect : Value → String
  | .null => "Null"
  | .bool b => "Bool(" ++ toString b ++ ")"
  | .int k x => (Kind.int k).tag ++ "(" ++ toString (k.toInt x) ++ ")"
  | .f32 x => Kind.f32.tag ++ "(" ++ Binary32.text x ++ ")"
  | .f64 x => Kind.f64.tag ++ "(" ++ Binary64.text x ++ ")"
  | .decimal d => Kind.decimal.tag ++ "(" ++ d.text ++ ")"
  | .str s => "Str(" ++ Text.quoted s ++ ")"
  | .array ⟨_, items⟩ => "Array([" ++ ", ".intercalate (inspectAll items) ++ "])"
  | .object .. => "Object(..)"

/-- The diagnostic text of each value of a list. -/
def inspectAll : List Value → List String
  | [] => []
  | v :: vs => inspect v :: inspectAll vs

end

end Value

end Formula
