/-!
# Numeric kinds

The eleven numeric kinds of the expression language. Integers have a width and a signedness; the
order of promotion runs from the narrow integers over the wide ones and the two binary floating
point kinds to `decimal`.

* `Kind.promote`: the kind two operands of an arithmetic operator are brought to.
* `Kind.widens`: the conversions that need no cast.
-/

namespace Formula

/-- The integer kinds, in order of promotion. -/
inductive IntKind where
  | i8 | u8 | i16 | u16 | i32 | u32 | i64 | u64
deriving Repr, DecidableEq

namespace IntKind

/-- Every integer kind, in order of promotion. -/
def all : List IntKind := [.i8, .u8, .i16, .u16, .i32, .u32, .i64, .u64]

/-- Number of bits. -/
def width : IntKind → Nat
  | .i8 | .u8 => 8
  | .i16 | .u16 => 16
  | .i32 | .u32 => 32
  | .i64 | .u64 => 64

/-- Whether the top bit counts negatively. -/
def signed : IntKind → Bool
  | .i8 | .i16 | .i32 | .i64 => true
  | .u8 | .u16 | .u32 | .u64 => false

/-- Least value of the kind. -/
def lowest (k : IntKind) : Int := if k.signed then -Int.pow 2 (k.width - 1) else 0

/-- Greatest value of the kind. -/
def highest (k : IntKind) : Int :=
  if k.signed then Int.pow 2 (k.width - 1) - 1 else Int.pow 2 k.width - 1

/-- The integer a bit pattern stands for. -/
def toInt (k : IntKind) (x : BitVec k.width) : Int := if k.signed then x.toInt else x.toNat

/-- The bit pattern congruent to `i` modulo `2 ^ width`. -/
def wrap (k : IntKind) (i : Int) : BitVec k.width := BitVec.ofInt k.width i

/-- Whether `i` is a value of the kind. -/
def holds (k : IntKind) (i : Int) : Bool := k.lowest ≤ i && i ≤ k.highest

end IntKind

/-- A numeric kind. -/
inductive Kind where
  | int (k : IntKind)
  | f32
  | f64
  | decimal
deriving Repr, DecidableEq

namespace Kind

/-- Every kind, in order of promotion. -/
def all : List Kind := IntKind.all.map .int ++ [.f32, .f64, .decimal]

/-- Position in the order of promotion. -/
def rank : Kind → Nat
  | .int .i8 => 0
  | .int .u8 => 1
  | .int .i16 => 2
  | .int .u16 => 3
  | .int .i32 => 4
  | .int .u32 => 5
  | .int .i64 => 6
  | .int .u64 => 7
  | .f32 => 8
  | .f64 => 9
  | .decimal => 10

/-- Whether the kind is one of the integer kinds. -/
def isInteger : Kind → Bool
  | .int _ => true
  | _ => false

/-- Whether the kind is one of the binary floating point kinds. -/
def isFloat : Kind → Bool
  | .f32 | .f64 => true
  | _ => false

/-- Whether the kind has negative values. -/
def isSigned : Kind → Bool
  | .int k => k.signed
  | _ => true

/-- The word for the kind in source text. -/
def keyword : Kind → String
  | .int .i8 => "sbyte"
  | .int .u8 => "byte"
  | .int .i16 => "short"
  | .int .u16 => "ushort"
  | .int .i32 => "int"
  | .int .u32 => "uint"
  | .int .i64 => "long"
  | .int .u64 => "ulong"
  | .f32 => "float"
  | .f64 => "double"
  | .decimal => "decimal"

/-- The name of the kind in the `System` namespace. -/
def systemName : Kind → String
  | .int .i8 => "SByte"
  | .int .u8 => "Byte"
  | .int .i16 => "Int16"
  | .int .u16 => "UInt16"
  | .int .i32 => "Int32"
  | .int .u32 => "UInt32"
  | .int .i64 => "Int64"
  | .int .u64 => "UInt64"
  | .f32 => "Single"
  | .f64 => "Double"
  | .decimal => "Decimal"

/-- The short tag of the kind in diagnostic texts. -/
def tag : Kind → String
  | .int .i8 => "I8"
  | .int .u8 => "U8"
  | .int .i16 => "I16"
  | .int .u16 => "U16"
  | .int .i32 => "I32"
  | .int .u32 => "U32"
  | .int .i64 => "I64"
  | .int .u64 => "U64"
  | .f32 => "F32"
  | .f64 => "F64"
  | .decimal => "Decimal"

/-- The other kinds that a kind goes to without a cast. -/
def wider : Kind → List Kind
  | .int .i8 => [.int .i16, .int .i32, .int .i64, .f32, .f64, .decimal]
  | .int .u8 =>
    [.int .i16, .int .u16, .int .i32, .int .u32, .int .i64, .int .u64, .f32, .f64, .decimal]
  | .int .i16 => [.int .i32, .int .i64, .f32, .f64, .decimal]
  | .int .u16 => [.int .i32, .int .u32, .int .i64, .int .u64, .f32, .f64, .decimal]
  | .int .i32 => [.int .i64, .f32, .f64, .decimal]
  | .int .u32 => [.int .i64, .int .u64, .f32, .f64, .decimal]
  | .int .i64 | .int .u64 => [.f32, .f64, .decimal]
  | .f32 => [.f64]
  | .f64 | .decimal => []

/-- Whether a kind goes to another, or to itself, without a cast. -/
def widens (a b : Kind) : Bool := a == b || a.wider.contains b

/-- The kind two operands are promoted to: the one later in the order of promotion. -/
def promote (a b : Kind) : Kind := if b.rank ≤ a.rank then a else b

end Kind

end Formula
