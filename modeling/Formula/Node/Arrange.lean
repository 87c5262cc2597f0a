import Formula.Context
import Formula.Host
import Formula.Node

/-!
# Arranging blocks

A block is read as a flat list. Arranging gives it its shape, in three passes:

* casts: a type in parentheses takes the operand after it, with the operators in between;
* bars: each pair of bars becomes a call of `System.Math.Abs`;
* products: each run of operands joined by `*`, `/` or `%` becomes a block of its own, unless the
  run is the whole block.

A block is arranged before the blocks inside it, and the last of those first; with several faults
this decides which one is reported. So each item waits as a `Pending`: the node as it is now, and
the work that is left on it.

Nesting is bounded as in reading: parentheses, argument lists, casts and absolute values open one
level each, and runs none.
-/

namespace Formula

/-- A computation that makes nodes; the state is their number. -/
abbrev Arranging := StateT Nat (Except BuildError)

/-- The mark of a new node. -/
def newMark (offset : Nat) : Arranging Mark := fun n => .ok (⟨n, offset⟩, n + 1)

/-- A node with the work that is left on it, given its level of nesting. -/
structure Pending where
  node : Node
  finish : (depth : Nat) → Arranging Node

/-- What decides whether a name in parentheses is a cast, and the bound on nesting. -/
structure Scope where
  host : Host
  context : Context
  limit : Nat

namespace Scope

/-- The error of too deep a nesting. -/
def tooDeep (s : Scope) : BuildError := .limitExceeded .nestingDepth s.limit

/-- Fails beyond the bound on nesting. -/
def checkDepth (s : Scope) (depth : Nat) : Arranging Unit :=
  if s.limit < depth then throw s.tooDeep else pure ()

end Scope

/-! ## Casts -/

/-- The names of a route that is made of names only, with the type arguments of the last one. -/
def memberPath : List (Segment Node) → Option (List String × List TypeName)
  | [] => some ([], [])
  | .member _ name generics :: rest =>
    (memberPath rest).map fun (path, later) =>
      (name :: path, if rest.isEmpty then generics else later)
  | _ => none

/-- Whether a bare name is an instance member of the base type. -/
def Scope.isOwnMember (s : Scope) (name : String) : Bool :=
  match s.context.base with
  | some base => (s.host.findMember base name).any fun m => !m.isStatic
  | none => false

/-- The type that a dotted name in parentheses casts to: it starts with no parameter, is no member
of the base type, and names a type. -/
def Scope.namedType? (s : Scope) : List String × List TypeName → Option TypeName
  | ([], _) => none
  | (first :: more, generics) =>
    if (s.context.parameter? first).isSome then none
    else if more.isEmpty && generics.isEmpty && s.isOwnMember first then none
    else (TypeName.ofPath? (first :: more) generics).filter fun t => (s.host.resolve t).isSome

/-- The type that a block in parentheses casts to: it holds one dotted name. -/
def Scope.castTarget? (s : Scope) : Node → Option TypeName
  | .block _ [.route _ .scope segments] => (memberPath segments).bind s.namedType?
  | _ => none

/-- Splits the operators at the front off. -/
def leadingOperators : List Pending → List (Mark × Operator) × List Pending
  | [] => ([], [])
  | p :: rest =>
    match p.node with
    | .operator mark op =>
      let (signs, after) := leadingOperators rest
      ((mark, op) :: signs, after)
    | _ => ([], p :: rest)

/-- Bars among the operators of a cast are never closed: the first operator would close a bar that
is not open, and any later one opens a span that has no end. -/
def Scope.checkSigns (s : Scope) (depth : Nat) (signs : List (Mark × Operator)) : Arranging Unit :=
  let bars := signs.filter (·.2 = .bar)
  match signs.head?, bars.getLast? with
  | some first, some last =>
    if first.2 = .bar then throw (.parse first.1.offset .strayBar)
    else if s.limit < depth + bars.length then throw s.tooDeep
    else throw (.parse last.1.offset .unclosedBar)
  | _, _ => pure ()

/-- The level of nesting of an item in a block at level `depth`. -/
def itemDepth (depth : Nat) (n : Node) : Nat := if n.isBlock then depth + 1 else depth

/-- A cast whose operand waits. -/
def Scope.pendCast (s : Scope) (mark typeMark : Mark) (target : TypeName)
    (signs : List (Mark × Operator)) (operand : Pending) : Pending where
  node := .cast mark typeMark target signs operand.node
  finish depth := do
    s.checkDepth depth
    s.checkSigns depth signs
    let operand ← operand.finish (itemDepth depth operand.node)
    return .cast mark typeMark target signs operand

/-- Forms casts from the right, so that a cast can be the operand of the cast before it. -/
def Scope.casts (s : Scope) : List Pending → Arranging (List Pending)
  | [] => pure []
  | p :: rest => do
    let rest ← s.casts rest
    match s.castTarget? p.node with
    | none => return p :: rest
    | some target =>
      match leadingOperators rest with
      | (_, []) => throw (.parse p.node.offset (.castWithoutOperand target))
      | (signs, operand :: after) =>
        let typeMark ← newMark p.node.offset
        let mark ← newMark p.node.offset
        return s.pendCast mark typeMark target signs operand :: after

/-! ## Products -/

/-- Whether the item is an operator that joins factors. -/
def Pending.joinsFactors (p : Pending) : Bool :=
  match p.node.operator? with
  | some op => op.isMultiplicative
  | none => false

/-- Splits a list of items into runs of factors and single items. -/
def productRuns : List Pending → List (List Pending)
  | [] => []
  | p :: rest =>
    match productRuns rest with
    | [op] :: (q :: run) :: more =>
      if !p.node.isOperator && op.joinsFactors && !q.node.isOperator then
        (p :: op :: q :: run) :: more
      else [p] :: [op] :: (q :: run) :: more
    | runs => [p] :: runs

/-- Marks a run of more than one item. -/
def markRun (run : List Pending) : Arranging (Option Mark × List Pending) :=
  match run with
  | first :: _ :: _ => return (some (← newMark first.node.offset), run)
  | _ => return (none, run)

/-- Marks the runs of more than one item; a single run is the whole block and gets no mark. -/
def markRuns (runs : List (List Pending)) : Arranging (List (Option Mark × List Pending)) :=
  if runs.length ≤ 1 then return runs.map (none, ·) else runs.mapM markRun

/-- Finishes nodes, the last one first; `level` gives the level of nesting of each. -/
def finishAll (level : Node → Nat) : List Pending → Arranging (List Node)
  | [] => pure []
  | p :: rest => do
    let rest ← finishAll level rest
    let n ← p.finish (level p.node)
    return n :: rest

/-- Finishes the items of a block. -/
def finishItems (depth : Nat) : List Pending → Arranging (List Node) := finishAll (itemDepth depth)

/-- Finishes runs, the last one first; a marked run becomes a block. -/
def finishRuns (depth : Nat) : List (Option Mark × List Pending) → Arranging (List Node)
  | [] => pure []
  | (mark, run) :: rest => do
    let rest ← finishRuns depth rest
    let items ← finishItems depth run
    return (match mark with
      | some m => .block m items :: rest
      | none => items ++ rest)

/-- Groups products and finishes the items. -/
def finishProducts (depth : Nat) (items : List Pending) : Arranging (List Node) := do
  finishRuns depth (← markRuns (productRuns items))

/-! ## Bars -/

/-- The call of `System.Math.Abs` on what stands between two bars. -/
def absCall (offset : Nat) (inner : List Pending) : Arranging Pending := do
  let blockMark ← newMark offset
  let systemMark ← newMark offset
  let mathMark ← newMark offset
  let absMark ← newMark offset
  let routeMark ← newMark offset
  let call (items : List Node) : Node :=
    .route routeMark .type [.member systemMark "System" [], .member mathMark "Math" [],
      .method absMark "Abs" [] [.block blockMark items]]
  return {
    node := call (inner.map Pending.node)
    finish := fun depth => return call (← finishProducts (depth + 1) inner) }

/-- Whether a bar opens a span, from the items before it, last one first: it closes one when it
stands behind an operand. -/
def barOpens (before : List Pending) : Bool :=
  match before with
  | [] => true
  | p :: _ => p.node.isOperator

/-- Replaces spans between bars. `spans` are the open ones, innermost first: the offset of the
opening bar and the items before it; `before` are the items since the innermost opening. Both lists
of items have the last one first. -/
def Scope.bars (s : Scope) (depth : Nat) (spans : List (Nat × List Pending))
    (before : List Pending) : List Pending → Arranging (List Pending)
  | [] =>
    match spans with
    | [] => return before.reverse
    | (offset, _) :: _ => throw (.parse offset .unclosedBar)
  | p :: rest =>
    if p.node.operator? = some .bar then
      if barOpens before then
        if s.limit ≤ depth + spans.length then throw s.tooDeep
        else s.bars depth ((p.node.offset, before) :: spans) [] rest
      else
        match spans with
        | [] => throw (.parse p.node.offset .strayBar)
        | (offset, outer) :: spans => do
          let call ← absCall offset before.reverse
          s.bars depth spans (call :: outer) rest
    else s.bars depth spans (p :: before) rest

/-! ## Trees -/

/-- Arranges the items of a block. -/
def Scope.finishBlock (s : Scope) (depth : Nat) (mark : Mark) (items : List Pending) :
    Arranging Node := do
  s.checkDepth depth
  let items ← s.casts items
  let items ← s.bars depth [] [] items
  return .block mark (← finishProducts depth items)

/-- Finishes arguments. -/
def finishArgs (depth : Nat) : List Pending → Arranging (List Node) := finishAll fun _ => depth + 1

/-- Finishes the segments of a route, the last one first. -/
def finishSegments (depth : Nat) : List (Segment Pending) → Arranging (List (Segment Node))
  | [] => pure []
  | segment :: rest => do
    let rest ← finishSegments depth rest
    match segment with
    | .member mark name generics => return .member mark name generics :: rest
    | .method mark name generics args =>
      return .method mark name generics (← finishArgs depth args) :: rest
    | .indexer mark args => return .indexer mark (← finishArgs depth args) :: rest

namespace Node

mutual

/-- The node with all its arranging left to do. -/
def pend (s : Scope) : Node → Pending
  | .block mark items =>
    ⟨.block mark items, fun depth => s.finishBlock depth mark (pendAll s items)⟩
  | .cast mark typeMark target signs operand =>
    s.pendCast mark typeMark target signs (pend s operand)
  | .route mark head segments =>
    ⟨.route mark head segments,
      fun depth => return .route mark head (← finishSegments depth (pendSegments s segments))⟩
  | n => ⟨n, fun _ => pure n⟩

/-- `pend` on each node of a list. -/
def pendAll (s : Scope) : List Node → List Pending
  | [] => []
  | n :: ns => pend s n :: pendAll s ns

/-- `pend` on each argument of each segment. -/
def pendSegments (s : Scope) : List (Segment Node) → List (Segment Pending)
  | [] => []
  | .member mark name generics :: rest => .member mark name generics :: pendSegments s rest
  | .method mark name generics args :: rest =>
    .method mark name generics (pendAll s args) :: pendSegments s rest
  | .indexer mark args :: rest => .indexer mark (pendAll s args) :: pendSegments s rest

end

/-- Arranges a tree that has been read. -/
def arrange (s : Scope) (root : Node) : Arranging Node := (root.pend s).finish 0

end Node

end Formula
