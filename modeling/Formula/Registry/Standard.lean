import Formula.Registry
import Formula.Text.Case

/-!
# The standard registry

What every host starts with: the bounds of the numeric kinds, a few members of strings, the class
`System.Math`, and functions on `double` that the host links in.
-/

namespace Formula

/-! ## Arguments -/

/-- The argument at a position. -/
def argument (args : List Value) (i : Nat) : Outcome :=
  match args[i]? with
  | some v => .ok v
  | none => .error (.tooFewValues (i + 1) args.length)

/-- The argument at a position, as a `double`. -/
def floatArgument (args : List Value) (i : Nat) : Except RunError Float := do
  let v ← argument args i
  match v.toFloat? with
  | some x => return x
  | none => throw (.invalidValue Kind.f64.keyword v.typeName)

/-- The first `count` arguments, as `double`s. -/
def floatArguments (args : List Value) (count : Nat) : Except RunError (List Float) :=
  (List.range count).mapM (floatArgument args)

/-! ## Functions of the host -/

/-- A function on `double`s, known as a static method of the class `owner`. -/
structure FloatFunction where
  owner : String
  name : String
  arity : Nat
  apply : List Float → Float

/-- The class of the functions that name no other. -/
def FloatFunction.defaultOwner : String := "Functions"

/-- The declaration of a function. -/
def FloatFunction.declaration (f : FloatFunction) : Declaration :=
  .extend (.named none f.owner []) [.staticMethod f.name 0 (List.replicate f.arity .f64) .f64
    fun args => do return .f64 (f.apply (← floatArguments args f.arity))]

/-! ## Built-in types -/

/-- The least and the greatest value of a kind. -/
def Kind.bounds : Kind → Value × Value
  | .int k => (.ofInt k k.lowest, .ofInt k k.highest)
  | .f32 =>
    let top := FloatFormat.single.infinity - 1
    (.f32 (Binary32.ofPattern (FloatFormat.single.signBit + top)), .f32 (Binary32.ofPattern top))
  | .f64 =>
    let top := FloatFormat.double.infinity - 1
    (.f64 (Binary64.ofPattern (FloatFormat.double.signBit + top)), .f64 (Binary64.ofPattern top))
  | .decimal => (.decimal Decimal.greatest.neg, .decimal .greatest)

/-- The bounds of a kind as static members of its type. -/
def boundsDeclaration (kind : Kind) : Declaration :=
  .extend (.numeric kind) [
    .staticProperty "MinValue" (.numeric kind) (.ok kind.bounds.1),
    .staticProperty "MaxValue" (.numeric kind) (.ok kind.bounds.2)]

/-- Hands the text on, which the receiver has to be. -/
def withText (run : String → Value) (v : Value) : Outcome :=
  match v.text? with
  | some s => .ok (run s)
  | none => .error (.invalidValue "string" v.typeName)

/-- The members of strings. -/
def stringDeclaration : Declaration :=
  .extend .string [
    .property "Length" .i32 (withText fun s => .ofInt .i32 s.length),
    .method "ToUpper" 0 [] .string fun v _ => withText (fun s => .str (Text.toUpper s)) v,
    .method "ToLower" 0 [] .string fun v _ => withText (fun s => .str (Text.toLower s)) v]

/-! ## Mathematics -/

/-- The magnitude of a signed number. The least integer of a kind is its own. -/
def Value.abs : Value → Outcome
  | .int k x =>
    if k.signed then .ok (.ofInt k (k.toInt x).natAbs)
    else .error (.invalidValue "signed number" (Kind.int k).keyword)
  | .f32 x => .ok (.f32 x.abs)
  | .f64 x => .ok (.f64 x.abs)
  | .decimal d => .ok (.decimal d.abs)
  | v => .error (.invalidValue "signed number" v.typeName)

/-- The integer kinds that `Min` and `Max` compare. -/
def comparedKinds : List IntKind := [.i32, .u32, .i64, .u64]

/-- The greater or the lesser of two numbers of one kind. -/
def Value.pick (greater : Bool) (a b : Value) : Outcome :=
  let mismatch : Outcome :=
    .error (.invalidValue "two numbers of one kind" (a.typeName ++ ", " ++ b.typeName))
  match a, b with
  | .int k x, .int l y =>
    if k = l ∧ k ∈ comparedKinds then
      .ok (.ofInt k (if greater then max (k.toInt x) (l.toInt y) else min (k.toInt x) (l.toInt y)))
    else mismatch
  | .f32 x, .f32 y => .ok (.f32 (if greater then Binary32.maximum x y else Binary32.minimum x y))
  | .f64 x, .f64 y => .ok (.f64 (if greater then Binary64.maximum x y else Binary64.minimum x y))
  | .decimal x, .decimal y => .ok (.decimal (if greater then x.maximum y else x.minimum y))
  | _, _ => mismatch

/-- The kinds that have an absolute value. -/
def absKinds : List Kind := [.int .i8, .int .i16, .int .i32, .int .i64, .f32, .f64, .decimal]

/-- The kinds that `Min` and `Max` compare. -/
def pickKinds : List Kind := comparedKinds.map Kind.int ++ [.f32, .f64, .decimal]

/-- `Abs` of one kind. -/
def absItem (kind : Kind) : ClassItem :=
  .staticMethod "Abs" 0 [.numeric kind] (.numeric kind) fun args => do (← argument args 0).abs

/-- `Min` and `Max` of one kind. -/
def pickItems (kind : Kind) : List ClassItem :=
  let item (name : String) (greater : Bool) : ClassItem :=
    .staticMethod name 0 [.numeric kind, .numeric kind] (.numeric kind) fun args => do
      Value.pick greater (← argument args 0) (← argument args 1)
  [item "Min" false, item "Max" true]

/-- A function of one `double`. -/
def unaryItem (name : String) (f : Float → Float) : ClassItem :=
  .staticMethod name 0 [.f64] .f64 fun args => do return .f64 (f (← floatArgument args 0))

/-- The class `System.Math`. -/
def mathType : Ty := .named (some "System") "Math" []

/-- The members of `System.Math`. -/
def mathDeclaration : Declaration :=
  .extend mathType (
    absKinds.map absItem ++ pickKinds.flatMap pickItems ++
    [unaryItem "Sqrt" Float.sqrt,
      .staticMethod "Pow" 0 [.f64, .f64] .f64 fun args => do
        return .f64 ((← floatArgument args 0).pow (← floatArgument args 1)),
      unaryItem "Floor" Float.floor,
      unaryItem "Ceiling" Float.ceil,
      unaryItem "Round" Binary64.roundEven,
      .staticProperty "PI" .f64 (.ok (.f64 (Binary64.ofPattern 0x400921fb54442d18))),
      .staticProperty "E" .f64 (.ok (.f64 (Binary64.ofPattern 0x4005bf0a8b145769)))])

namespace Registry

/-- The declarations every host starts with. -/
def builtins : List Declaration :=
  Kind.all.map boundsDeclaration ++ [stringDeclaration, mathDeclaration]

/-- The registry of the built-in types and of the functions the host links in. -/
def standard (linked : List FloatFunction) : Registry :=
  (empty.declareAll builtins).declareAll (linked.map FloatFunction.declaration)

end Registry

end Formula
