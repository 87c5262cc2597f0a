import Formula.Proofs.Arranging
import Formula.Proofs.Grammar

/-!
# The shape of a tree

* `Node.Formed s`: every block is an expression of the grammar, in the scope `s`;
* `Node.WellShaped`: every block is a flat expression, without bars and types, as binding wants it.

A tree that has been read is formed if all its blocks are expressions (`Node.formed_iff_blocks`),
and the types in parentheses among them always are (`Node.forall_blocks_iff`).
-/

namespace Formula

open Grammar

namespace Node

/-- The token of a node in a tree without types. -/
def token (n : Node) : Token :=
  match n.operator? with
  | some o => .op o
  | none => .item

/-- The elements of a block. -/
def items : Node → List Node
  | .block _ items => items
  | _ => []

end Node

/-- The token of a node in a scope. -/
def Scope.token (s : Scope) (n : Node) : Token :=
  if (s.castTarget? n).isSome then .type else n.token

/-- Before the operand of a cast there is a sign or nothing. -/
def IsCastSign : List (Mark × Operator) → Prop
  | [] => True
  | [sign] => sign.2.isSign = true
  | _ => False

/-- Every block is an expression in a scope, and casts have at most a sign. -/
def Node.Formed (s : Scope) : Node → Prop :=
  Node.Built (fun items => IsExpr (items.map s.token)) IsCastSign

/-- Every block is a flat expression, and casts have at most a sign. -/
def Node.WellShaped : Node → Prop :=
  Node.Built (fun items => reads .start (items.map Node.token) = some .operator) IsCastSign

/-- Whether an error is about the shape of a text. -/
def BuildError.isParse : BuildError → Bool
  | .parse .. => true
  | _ => false

/-! ## Types in parentheses -/

private theorem memberPath_args {segments : List (Segment Node)}
    (h : (memberPath segments).isSome) :
    ∀ segment ∈ segments, segment.args = [] := by
  induction segments with
  | nil => simp
  | cons segment rest ih =>
    cases segment with
    | member mark name generics =>
      simp only [memberPath, Option.isSome_map] at h
      simpa [Segment.args] using ih h
    | method mark name generics args => simp [memberPath] at h
    | indexer mark args => simp [memberPath] at h

/-- What stands in a type in parentheses is an expression. -/
theorem isExpr_of_castTarget {s : Scope} {n : Node} (h : (s.castTarget? n).isSome) :
    IsExpr (n.items.map s.token) := by
  unfold Scope.castTarget? at h
  split at h
  · exact .unsigned .item .nil
  · simp at h

/-- A type in parentheses is formed. -/
theorem formed_of_castTarget {s : Scope} {n : Node} (h : (s.castTarget? n).isSome) :
    n.Formed s := by
  unfold Scope.castTarget? at h
  split at h
  · rename_i mark mark' segments
    have hpath : (memberPath segments).isSome := by
      cases hpath : memberPath segments with
      | none => simp [hpath] at h
      | some path => rfl
    refine Node.built_block.mpr ⟨.unsigned .item .nil, ?_⟩
    intro n hn
    cases List.mem_singleton.mp hn
    refine .inr (Node.built_route.mpr fun segment hsegment n hn => ?_)
    simp [memberPath_args hpath segment hsegment] at hn
  · simp at h

namespace Node

/-! ## Blocks -/

mutual

/-- The blocks of a tree. -/
def blocks : Node → List Node
  | .block mark items => .block mark items :: blocksAll items
  | .cast _ _ _ _ operand => blocks operand
  | .route _ _ segments => blocksOfSegments segments
  | .constant .. | .operator .. | .unresolved .. => []

/-- `blocks` of each node of a list. -/
def blocksAll : List Node → List Node
  | [] => []
  | n :: ns => blocks n ++ blocksAll ns

/-- `blocks` of each argument of each segment. -/
def blocksOfSegments : List (Segment Node) → List Node
  | [] => []
  | .member .. :: rest => blocksOfSegments rest
  | .method _ _ _ args :: rest | .indexer _ args :: rest => blocksAll args ++ blocksOfSegments rest

end

theorem blocksAll_eq (ns : List Node) : blocksAll ns = ns.flatMap blocks := by
  induction ns with
  | nil => simp [blocksAll]
  | cons n ns ih => simp [blocksAll, ih]

theorem blocksOfSegments_eq (segments : List (Segment Node)) :
    blocksOfSegments segments = segments.flatMap fun segment => segment.args.flatMap blocks := by
  induction segments with
  | nil => simp [blocksOfSegments]
  | cons segment rest ih =>
    cases segment <;> simp [blocksOfSegments, blocksAll_eq, Segment.args, ih]

/-- A tree without casts is formed if its blocks are expressions. -/
theorem formed_iff_blocks {s : Scope} {n : Node} (hn : n.Plain) :
    n.Formed s ↔ ∀ block ∈ n.blocks, IsExpr (block.items.map s.token) := by
  induction n using Node.induct with
  | block mark items ih =>
    have hitems : (∀ n ∈ items, n.isOperator = true ∨ n.Formed s) ↔
        ∀ n ∈ items, ∀ block ∈ n.blocks, IsExpr (block.items.map s.token) := by
      refine forall₂_congr fun n hmem => ?_
      rcases (built_block.mp hn).2 n hmem with hop | hplain
      · cases n <;> simp_all [isOperator, operator?, blocks]
      · rw [← ih n hmem hplain]
        refine or_iff_right fun hop => ?_
        cases n <;> first | exact hplain | cases hop
    rw [Formed, built_block, blocks, blocksAll_eq, List.forall_mem_cons, List.forall_mem_flatMap]
    exact and_congr Iff.rfl hitems
  | cast mark typeMark target signs operand ih => exact hn.1.elim
  | route mark head segments ih =>
    rw [Formed, built_route, blocks, blocksOfSegments_eq, List.forall_mem_flatMap]
    refine forall₂_congr fun segment hs => ?_
    rw [List.forall_mem_flatMap]
    exact forall₂_congr fun n hmem => ih segment hs n hmem (built_route.mp hn segment hs n hmem)
  | operator => exact hn.elim
  | constant | unresolved => simp [Formed, Built, blocks]

/-- Types in parentheses need not be looked at: what stands in them is an expression. -/
theorem forall_blocks_iff {s : Scope} {n : Node} :
    (∀ block ∈ n.blocks, s.castTarget? block = none → IsExpr (block.items.map s.token)) ↔
      ∀ block ∈ n.blocks, IsExpr (block.items.map s.token) := by
  refine forall₂_congr fun block _ => ⟨fun h => ?_, fun h _ => h⟩
  rcases hblock : s.castTarget? block with _ | target
  · exact h hblock
  · exact isExpr_of_castTarget (by simp [hblock])

end Node

end Formula
