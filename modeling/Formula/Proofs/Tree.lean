import Formula.Node

/-!
# Trees

`Node.induct` is induction over trees: a node may rely on its items, its operand or its arguments.

`Node.Built block cast`: all blocks of a tree have `block`, all casts have `cast`, and operators are
items of blocks and nothing else.

`Node.elements`: the nodes of a tree and the segments of its routes; `Node.heads`: the names that
the routes start with; `Node.LiteralsIn`: what the constants of a tree have in common.
-/

namespace Formula.Node

/-! ## Induction over trees -/

private theorem sizeOf_arg_lt {segment : Segment Node} {n : Node} (h : n ∈ segment.args) :
    sizeOf n < sizeOf segment := by
  cases segment with
  | member mark name generics => simp [Segment.args] at h
  | method mark name generics args =>
    have hn := List.sizeOf_lt_of_mem (show n ∈ args from h)
    simp only [Segment.method.sizeOf_spec]
    omega
  | indexer mark args =>
    have hn := List.sizeOf_lt_of_mem (show n ∈ args from h)
    simp only [Segment.indexer.sizeOf_spec]
    omega

/-- A property of all trees, from one case for each kind of node. -/
@[elab_as_elim]
theorem induct {P : Node → Prop} (constant : ∀ mark v, P (.constant mark v))
    (operator : ∀ mark op, P (.operator mark op))
    (unresolved : ∀ mark raw, P (.unresolved mark raw))
    (cast : ∀ mark typeMark target signs operand, P operand →
      P (.cast mark typeMark target signs operand))
    (route : ∀ mark head segments, (∀ segment ∈ segments, ∀ n ∈ segment.args, P n) →
      P (.route mark head segments))
    (block : ∀ mark items, (∀ n ∈ items, P n) → P (.block mark items)) (n : Node) : P n :=
  match n with
  | .constant mark v => constant mark v
  | .operator mark op => operator mark op
  | .unresolved mark raw => unresolved mark raw
  | .cast mark typeMark target signs operand =>
    cast mark typeMark target signs operand
      (induct constant operator unresolved cast route block operand)
  | .route mark head segments => route mark head segments fun segment hsegment n hn =>
    have := List.sizeOf_lt_of_mem hsegment
    have := sizeOf_arg_lt hn
    induct constant operator unresolved cast route block n
  | .block mark items => block mark items fun n hn =>
    have := List.sizeOf_lt_of_mem hn
    induct constant operator unresolved cast route block n
termination_by sizeOf n
decreasing_by
  all_goals
    simp only [Node.cast.sizeOf_spec, Node.route.sizeOf_spec, Node.block.sizeOf_spec]
    omega

/-! ## Shapes -/

mutual

/-- The blocks of a tree have `block`, its casts have `cast`, and its operators are items. -/
def Built (block : List Node → Prop) (cast : List (Mark × Operator) → Prop) : Node → Prop
  | .block _ items => block items ∧ BuiltItems block cast items
  | .cast _ _ _ signs operand => cast signs ∧ Built block cast operand
  | .route _ _ segments => BuiltSegments block cast segments
  | .operator .. => False
  | .constant .. | .unresolved .. => True

/-- `Built` for the items of a block that are no operators. -/
def BuiltItems (block : List Node → Prop) (cast : List (Mark × Operator) → Prop) :
    List Node → Prop
  | [] => True
  | n :: ns => (n.isOperator = true ∨ Built block cast n) ∧ BuiltItems block cast ns

/-- `Built` for arguments. -/
def BuiltArgs (block : List Node → Prop) (cast : List (Mark × Operator) → Prop) : List Node → Prop
  | [] => True
  | n :: ns => Built block cast n ∧ BuiltArgs block cast ns

/-- `Built` for the arguments of each segment. -/
def BuiltSegments (block : List Node → Prop) (cast : List (Mark × Operator) → Prop) :
    List (Segment Node) → Prop
  | [] => True
  | .member .. :: rest => BuiltSegments block cast rest
  | .method _ _ _ args :: rest | .indexer _ args :: rest =>
    BuiltArgs block cast args ∧ BuiltSegments block cast rest

end

section

variable {block : List Node → Prop} {cast : List (Mark × Operator) → Prop}

theorem builtItems_iff {items : List Node} :
    BuiltItems block cast items ↔ ∀ n ∈ items, n.isOperator = true ∨ n.Built block cast := by
  induction items with
  | nil => simp [BuiltItems]
  | cons n ns ih => simp [BuiltItems, ih]

theorem built_block {mark : Mark} {items : List Node} :
    (Node.block mark items).Built block cast ↔
      block items ∧ ∀ n ∈ items, n.isOperator = true ∨ n.Built block cast := by
  rw [Built, builtItems_iff]

theorem builtArgs_iff {args : List Node} :
    BuiltArgs block cast args ↔ ∀ n ∈ args, n.Built block cast := by
  induction args with
  | nil => simp [BuiltArgs]
  | cons n ns ih => simp [BuiltArgs, ih]

theorem built_route {mark : Mark} {head : RouteHead} {segments : List (Segment Node)} :
    (Node.route mark head segments).Built block cast ↔
      ∀ segment ∈ segments, ∀ n ∈ segment.args, n.Built block cast := by
  rw [Built]
  induction segments with
  | nil => simp [BuiltSegments]
  | cons segment rest ih =>
    cases segment <;> simp [BuiltSegments, Segment.args, builtArgs_iff, ih]

end

/-- There are no casts, as in a tree that was read. -/
def Plain : Node → Prop := Built (fun _ => True) fun _ => False

end Formula.Node

namespace Formula

/-! ## Elements -/

/-- A node, or a segment of a route. -/
inductive Element where
  | node (n : Node)
  | segment (s : Segment Node)

/-- The mark of an element. -/
def Element.mark : Element → Mark
  | .node n => n.mark
  | .segment s => s.mark

namespace Node

mutual

/-- The nodes of a tree that are bound, and the segments of its routes. -/
def elements : Node → List Element
  | .constant mark v => [.node (.constant mark v)]
  | .operator mark op => [.node (.operator mark op)]
  | .unresolved mark raw => [.node (.unresolved mark raw)]
  | .cast mark typeMark target signs operand =>
    .node (.cast mark typeMark target signs operand) :: elements operand
  | .route mark head segments =>
    .node (.route mark head segments) :: elementsOfSegments segments
  | .block mark items => .node (.block mark items) :: elementsAll items

/-- `elements` of each node of a list. -/
def elementsAll : List Node → List Element
  | [] => []
  | n :: ns => elements n ++ elementsAll ns

/-- The segments, with `elements` of their arguments. -/
def elementsOfSegments : List (Segment Node) → List Element
  | [] => []
  | .member mark name generics :: rest =>
    .segment (.member mark name generics) :: elementsOfSegments rest
  | .method mark name generics args :: rest =>
    .segment (.method mark name generics args) :: (elementsAll args ++ elementsOfSegments rest)
  | .indexer mark args :: rest =>
    .segment (.indexer mark args) :: (elementsAll args ++ elementsOfSegments rest)

end

theorem elementsAll_eq (ns : List Node) : elementsAll ns = ns.flatMap elements := by
  induction ns with
  | nil => simp [elementsAll]
  | cons n ns ih => simp [elementsAll, ih]

theorem elementsOfSegments_eq (segments : List (Segment Node)) :
    elementsOfSegments segments = segments.flatMap fun segment =>
      .segment segment :: segment.args.flatMap elements := by
  induction segments with
  | nil => simp [elementsOfSegments]
  | cons segment rest ih =>
    cases segment <;> simp [elementsOfSegments, elementsAll_eq, Segment.args, ih]

theorem elements_self (n : Node) : .node n ∈ n.elements := by
  cases n <;> simp [elements]

variable {P : Element → Prop}

theorem forall_elements_block {mark : Mark} {items : List Node} :
    (∀ e ∈ (Node.block mark items).elements, P e) ↔
      P (.node (.block mark items)) ∧ ∀ n ∈ items, ∀ e ∈ n.elements, P e := by
  rw [elements, elementsAll_eq, List.forall_mem_cons, List.forall_mem_flatMap]

theorem forall_elements_cast {mark typeMark : Mark} {target : TypeName}
    {signs : List (Mark × Operator)} {operand : Node} :
    (∀ e ∈ (Node.cast mark typeMark target signs operand).elements, P e) ↔
      P (.node (.cast mark typeMark target signs operand)) ∧ ∀ e ∈ operand.elements, P e := by
  rw [elements, List.forall_mem_cons]

theorem forall_elements_route {mark : Mark} {head : RouteHead} {segments : List (Segment Node)} :
    (∀ e ∈ (Node.route mark head segments).elements, P e) ↔
      P (.node (.route mark head segments)) ∧ ∀ segment ∈ segments,
        P (.segment segment) ∧ ∀ n ∈ segment.args, ∀ e ∈ n.elements, P e := by
  rw [elements, elementsOfSegments_eq, List.forall_mem_cons, List.forall_mem_flatMap]
  refine and_congr_right fun _ => forall₂_congr fun segment _ => ?_
  rw [List.forall_mem_cons, List.forall_mem_flatMap]

end Node

/-! ## Names -/

/-- The type arguments of a segment. -/
def Segment.generics {α : Type} : Segment α → List TypeName
  | .member _ _ generics | .method _ _ generics _ => generics
  | .indexer .. => []

/-- The type arguments that are written in an element itself. -/
def Element.typeArguments : Element → List TypeName
  | .node (.cast _ _ target _ _) => target.args
  | .segment s => s.generics
  | .node _ => []

/-- The name of a segment; an indexer has none. -/
def Segment.name? {α : Type} : Segment α → Option String
  | .member _ name _ | .method _ name _ _ => some name
  | .indexer .. => none

/-- The name that a route starts with, unless only a type can have it. -/
def RouteHead.name? : RouteHead → List (Segment Node) → Option String
  | .scope, segment :: _ => segment.name?
  | _, _ => none

/-- The name that an element starts with, if it is a route. -/
def Element.head? : Element → Option String
  | .node (.route _ head segments) => head.name? segments
  | _ => none

namespace Node

/-- The names that the routes of a tree start with. -/
def heads (n : Node) : List String := n.elements.filterMap Element.head?

variable {P : String → Prop}

theorem forall_heads_iff {n : Node} :
    (∀ name ∈ n.heads, P name) ↔ ∀ e ∈ n.elements, ∀ name, e.head? = some name → P name := by
  unfold heads
  refine ⟨fun h e he name hname => h name (List.mem_filterMap.mpr ⟨e, he, hname⟩),
    fun h name hname => ?_⟩
  obtain ⟨e, he, hname⟩ := List.mem_filterMap.mp hname
  exact h e he name hname

theorem forall_heads_block {mark : Mark} {items : List Node} :
    (∀ name ∈ (Node.block mark items).heads, P name) ↔
      ∀ n ∈ items, ∀ name ∈ n.heads, P name := by
  simp only [forall_heads_iff, forall_elements_block]
  exact and_iff_right fun name hname => by cases hname

theorem forall_heads_cast {mark typeMark : Mark} {target : TypeName}
    {signs : List (Mark × Operator)} {operand : Node} :
    (∀ name ∈ (Node.cast mark typeMark target signs operand).heads, P name) ↔
      ∀ name ∈ operand.heads, P name := by
  simp only [forall_heads_iff, forall_elements_cast]
  exact and_iff_right fun name hname => by cases hname

theorem forall_heads_route {mark : Mark} {head : RouteHead} {segments : List (Segment Node)} :
    (∀ name ∈ (Node.route mark head segments).heads, P name) ↔
      (∀ name, head.name? segments = some name → P name) ∧
        ∀ segment ∈ segments, ∀ n ∈ segment.args, ∀ name ∈ n.heads, P name := by
  simp only [forall_heads_iff, forall_elements_route]
  refine and_congr_right fun _ => forall₂_congr fun segment _ => and_iff_right fun name hname => ?_
  cases hname

end Node

/-! ## Constants -/

/-- The value that an element is, if it is a constant. -/
def Element.literal? : Element → Option Value
  | .node (.constant _ v) => some v
  | _ => none

/-- The constants of a tree have `L`. -/
def Node.LiteralsIn (L : Value → Prop) (n : Node) : Prop :=
  ∀ e ∈ n.elements, ∀ v, e.literal? = some v → L v

end Formula
