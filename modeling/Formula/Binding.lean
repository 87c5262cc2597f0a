import Formula.Bound.Simplify
import Formula.Context
import Formula.Node.Render
import Formula.Slots

/-!
# Binding

From an arranged tree to a bound one. The nodes of a tree become tasks first, one a node: running
the task of a node answers from its slot, or binds the node and keeps the result. How slots are
kept is the monad's affair.

* `foldItems`: a block is folded from left to right, starting with its sign.
* `bindRoute`: the head of a route is a parameter, `this`, a member of the base type, or the
  shortest dotted name of a type with a static member; each further segment belongs to what stands
  before it.
* `callMethod`, `indexTarget`: the host picks the overload, and the arguments are converted to its
  parameters.
-/

namespace Formula

/-- What a tree is bound against. `simplify` asks for simplified blocks. -/
structure BindEnv where
  host : Host
  context : Context
  maxDepth : Nat
  simplify : Bool

/-- A node and the computation that binds it. -/
structure Task (m : Type → Type) where
  node : Node
  bind : m Bound

section

variable {m : Type → Type} [BindMonad m]

/-- Binds tasks from left to right. -/
def bindAll : List (Task m) → m (List Bound)
  | [] => pure []
  | t :: ts => do
    let b ← t.bind
    let bs ← bindAll ts
    return b :: bs

/-! ## Operators -/

/-- The operand as a number of a kind. -/
def toKind (kind : Kind) (b : Bound) : Bound :=
  if b.ty = .numeric kind then b else .convert (.numeric kind) (.numeric kind) b

/-- The kind a number is negated in: small unsigned numbers widen, and `ulong` has no negation. -/
def negationKind? : Kind → Option Kind
  | .int .u8 | .int .u16 => some (.int .i32)
  | .int .u32 => some (.int .i64)
  | .int .u64 => none
  | kind => some kind

/-- Unary minus. -/
def negateBound (b : Bound) : Except BuildError Bound :=
  match b.ty.kind?.bind negationKind? with
  | some kind => .ok (.negate (.numeric kind) (toKind kind b))
  | none => .error (.typeMismatch .sub b.ty b.ty)

/-- Unary minus, if there is one. -/
def negateIf (negative : Bool) (b : Bound) : Except BuildError Bound :=
  if negative then negateBound b else .ok b

/-- An operator between two operands, which are brought to one kind. Powers are `double`. -/
def binaryBound (op : ArithOp) (l r : Bound) : Except BuildError Bound :=
  let kind :=
    match op with
    | .pow => (l.ty.promote? r.ty).map fun _ => Kind.f64
    | _ => l.ty.promote? r.ty
  match kind with
  | some kind => .ok (.binary (.numeric kind) op (toKind kind l) (toKind kind r))
  | none => .error (.typeMismatch op l.ty r.ty)

/-- The type of a literal. -/
def literalType (v : Value) : Ty :=
  match v with
  | .bool _ => .bool
  | .str _ => .string
  | _ =>
    match v.kind? with
    | some kind => .numeric kind
    | none => .object

namespace BindEnv

/-- Refuses trees that are too deep. -/
def bounded (env : BindEnv) (b : Bound) : m Bound :=
  if env.maxDepth < b.depth then throw (.limitExceeded .treeDepth env.maxDepth) else pure b

/-- Simplifies if that is asked for. -/
def finish (env : BindEnv) (b : Bound) : Bound := if env.simplify then b.simplify else b

/-- Folds what follows the first operand of a block. -/
def foldRest (env : BindEnv) (acc : Bound) : List (Task m) → m Bound
  | [] => pure acc
  | t :: rest =>
    match t.node with
    | .operator mark .bar => throw (.parse mark.offset (.unexpected '|'))
    | .operator mark (.arith op) =>
      match rest with
      | [] => throw (.parse mark.offset (.missingRightOperand op))
      | right :: rest =>
        if right.node.isOperator then throw (.parse right.node.offset .twoOperators)
        else do
          let r ← right.bind
          let b ← ofExcept (binaryBound op acc r)
          let b ← env.bounded b
          env.foldRest b rest
    | .unresolved _ raw => throw (.unsupported (.unrecognized raw))
    | n => throw (.parse n.offset .missingOperator)

/-- Splits the sign off the items of a block: whether it is a minus, and the rest. -/
def splitSign : List (Task m) → Bool × List (Task m)
  | [] => (false, [])
  | t :: rest =>
    match t.node.operator? with
    | some op => if op.isSign then (op = .arith .sub, rest) else (false, t :: rest)
    | none => (false, t :: rest)

/-- Folds the items of a block. -/
def foldItems (env : BindEnv) (items : List (Task m)) : m Bound :=
  match splitSign items with
  | (_, []) => throw (.parse ((items.getLast?.map (·.node.offset)).getD 0) .missingOperand)
  | (negative, first :: rest) =>
    match first.node.operator? with
    | some op => throw (.parse first.node.offset (.unexpectedOperator op))
    | none => do
      let b ← first.bind
      let b ← ofExcept (negateIf negative b)
      let b ← env.foldRest b rest
      return env.finish b

/-! ## Casts -/

/-- The explicit conversion to a written type. Between numbers there always is one. -/
def castBound (env : BindEnv) (b : Bound) (target : TypeName) : Except BuildError Bound :=
  match env.host.resolve target with
  | none => .error (.unknownIdentifier target.text)
  | some ty =>
    if b.ty = ty then .ok b
    else
      let conversion :=
        match b.ty, ty with
        | .numeric _, .numeric kind => some (.numeric kind)
        | source, _ => env.host.implicitConversion source ty
      match conversion with
      | some c => .ok (.convert ty c b)
      | none => .error (.invalidCast b.ty ty)

/-- The sign of a cast's operand: whether it is a minus. Any other operator is refused. -/
def castSign (signs : List (Mark × Operator)) : Except BuildError Bool :=
  let (negative, rest) :=
    match signs with
    | [] => (false, [])
    | (mark, op) :: rest =>
      if op.isSign then (op = Operator.arith .sub, rest) else (false, (mark, op) :: rest)
  match rest with
  | [] => .ok negative
  | (mark, op) :: _ => .error (.parse mark.offset (.unexpectedOperator op))

/-- Binds a cast. -/
def bindCast (env : BindEnv) (target : TypeName) (signs : List (Mark × Operator))
    (operand : Task m) :
    m Bound := do
  let negative ← ofExcept (castSign signs)
  let b ← operand.bind
  let b ← ofExcept (negateIf negative b)
  let b ← ofExcept (env.castBound b target)
  return env.finish b

/-! ## Calls and indexers -/

/-- The types of written type arguments. -/
def resolveGenerics (env : BindEnv) : List TypeName → Except BuildError (List Ty)
  | [] => .ok []
  | t :: ts =>
    match env.host.resolve t with
    | none => .error (.unknownIdentifier t.text)
    | some ty => (env.resolveGenerics ts).map (ty :: ·)

/-- Converts each argument to its parameter; there have to be as many of the one as of the
other. -/
def coerce? (env : BindEnv) : List Bound → List Ty → Option (List Bound)
  | [], [] => some []
  | b :: bs, ty :: tys =>
    let converted :=
      if b.ty = ty then some b
      else (env.host.implicitConversion b.ty ty).map fun c => .convert ty c b
    match converted, env.coerce? bs tys with
    | some c, some cs => some (c :: cs)
    | _, _ => none
  | _, _ => none

/-- Calls a method of a type, on a target or statically. -/
def callMethod (env : BindEnv) (target : Option Bound) (owner : Ty) (name : String)
    (generics : List TypeName) (args : List (Task m)) : m Bound := do
  let generics ← ofExcept (env.resolveGenerics generics)
  let args ← bindAll args
  let types := args.map Bound.ty
  let notFound := BuildError.overloadNotFound (.call owner name generics types)
  match env.host.findMethod owner name generics types with
  | none => throw notFound
  | some (method, params) =>
    if method.isStatic ≠ target.isNone then throw notFound
    else
      match env.coerce? args params with
      | none => throw notFound
      | some args => return .call method.result target method args

/-- Indexes a target. -/
def indexTarget (env : BindEnv) (target : Bound) (args : List (Task m)) : m Bound := do
  let args ← bindAll args
  let types := args.map Bound.ty
  let notFound := BuildError.overloadNotFound (.index target.ty types)
  match env.host.findIndexer target.ty types with
  | none => throw notFound
  | some (indexer, params) =>
    match env.coerce? args params with
    | none => throw notFound
    | some args => return .index indexer.result target indexer args

/-! ## Routes -/

/-- The instance or static member of a type. -/
def findMember (env : BindEnv) (ty : Ty) (name : String) (isStatic : Bool) :
    Except BuildError Member :=
  match (env.host.findMember ty name).filter fun m => m.isStatic = isStatic with
  | some m => .ok m
  | none => .error (.unknownIdentifier (ty.text ++ "." ++ name))

/-- Binds a segment behind a target. -/
def bindInstance (env : BindEnv) (target : Bound) : Segment (Task m) → m Bound
  | .member _ name _ => do
    let found ← ofExcept (env.findMember target.ty name false)
    return .member found.ty (some target) found
  | .method _ name generics args => env.callMethod (some target) target.ty name generics args
  | .indexer _ args => env.indexTarget target args

/-- Binds a segment behind a type. -/
def bindStatic (env : BindEnv) (ty : Ty) : Segment (Task m) → m Bound
  | .member _ name _ => do
    let found ← ofExcept (env.findMember ty name true)
    return .member found.ty none found
  | .method _ name generics args => env.callMethod none ty name generics args
  | .indexer mark args =>
    throw (.unsupported (.afterType (Node.renderSegment (.indexer mark (args.map Task.node))) ty))

/-- Binds segments one behind the other. -/
def bindLinks (env : BindEnv) (target : Bound) : List (Segment (Task m)) → m Bound
  | [] => pure target
  | segment :: rest => do
    let b ← BindMonad.keep segment.mark.slot do
      let b ← env.bindInstance target segment
      env.bounded b
    env.bindLinks b rest

/-- Binds a route whose head names a type; `path` are the names that named none so far. -/
def bindTypeRoute (env : BindEnv) (path : List String) : List (Segment (Task m)) → m Bound
  | .member _ name generics :: rest =>
    let path := path ++ [name]
    match (TypeName.ofPath? path generics).bind env.host.resolve with
    | none => env.bindTypeRoute path rest
    | some ty =>
      match rest with
      | [] => throw (.unsupported (.typeAsValue ty))
      | next :: rest => do
        let b ← BindMonad.keep next.mark.slot (env.bindStatic ty next)
        env.bindLinks b rest
  | _ => throw (.unknownIdentifier (path.headD ""))

/-- The parameter, the receiver or the member of the base type that a bare name stands for. -/
def bindName (env : BindEnv) (mark : Mark) (name : String) : m (Option Bound) :=
  match env.context.parameter? name with
  | some (i, p) => return some (← BindMonad.keep mark.slot (pure (.param p.ty i)))
  | none =>
    match env.context.base with
    | none => if name = "this" then throw (.unsupported .noReceiver) else pure none
    | some base =>
      if name = "this" then return some (← BindMonad.keep mark.slot (pure (.this base)))
      else
        match (env.host.findMember base name).filter fun m => !m.isStatic with
        | some found =>
          return some
            (← BindMonad.keep mark.slot (pure (.member found.ty (some (.this base)) found)))
        | none => pure none

/-- Binds a route. -/
def bindRoute (env : BindEnv) (head : RouteHead) (segments : List (Segment (Task m))) :
    m Bound :=
  match head, segments with
  | .scope, .member mark name [] :: rest => do
    match ← env.bindName mark name with
    | some b => env.bindLinks b rest
    | none => env.bindTypeRoute [] segments
  | .scope, .method mark name generics args :: rest =>
    match env.context.base with
    | none => throw (.unknownIdentifier name)
    | some base => do
      let b ← BindMonad.keep mark.slot (env.callMethod (some (.this base)) base name generics args)
      env.bindLinks b rest
  | _, _ => env.bindTypeRoute [] segments

end BindEnv

/-! ## Trees -/

namespace Node

/-- A task that answers from the slot of its node, and binds trees of bounded depth only. -/
def kept (env : BindEnv) (n : Node) (bind : m Bound) : Task m :=
  ⟨n, BindMonad.keep n.mark.slot do env.bounded (← bind)⟩

mutual

/-- The task of a node. -/
def task (env : BindEnv) : Node → Task m
  | .constant mark v =>
    kept env (.constant mark v) (pure (.const (literalType v) v))
  | .operator mark op =>
    kept env (.operator mark op) (throw (.parse mark.offset (.unexpectedOperator op)))
  | .cast mark typeMark target signs operand =>
    kept env (.cast mark typeMark target signs operand)
      (env.bindCast target signs (task env operand))
  | .route mark head segments =>
    kept env (.route mark head segments) (env.bindRoute head (taskSegments env segments))
  | .block mark items => kept env (.block mark items) (env.foldItems (tasks env items))
  | .unresolved mark raw =>
    kept env (.unresolved mark raw) (throw (.unsupported (.unrecognized raw)))

/-- The tasks of a list of nodes. -/
def tasks (env : BindEnv) : List Node → List (Task m)
  | [] => []
  | n :: ns => task env n :: tasks env ns

/-- The segments of a route with the tasks of their arguments. -/
def taskSegments (env : BindEnv) : List (Segment Node) → List (Segment (Task m))
  | [] => []
  | .member mark name generics :: rest => .member mark name generics :: taskSegments env rest
  | .method mark name generics args :: rest =>
    .method mark name generics (tasks env args) :: taskSegments env rest
  | .indexer mark args :: rest => .indexer mark (tasks env args) :: taskSegments env rest

end

end Node

end

/-- Binds a tree. -/
def Node.resolve (env : BindEnv) (root : Node) : Resolving Bound := (root.task env).bind

end Formula
