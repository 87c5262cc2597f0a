import Formula.Bound.Simplify
import Formula.Proofs.Simplification

/-!
# Nodes of bound trees

`Bound.nodes`: all nodes of a bound tree, itself first. What holds of all nodes of a tree holds of
all nodes of the simplified one, if constants have it that are computed of such constants, and if a
node keeps it as its operands are simplified (`Bound.SimplifyRules.forall_nodes`).
-/

namespace Formula.Bound

mutual

/-- All nodes of a tree, each before those below it. -/
def nodes : Bound → List Bound
  | .const ty v => [.const ty v]
  | .param ty i => [.param ty i]
  | .this ty => [.this ty]
  | .member ty none m => [.member ty none m]
  | .member ty (some target) m => .member ty (some target) m :: nodes target
  | .call ty none m args => .call ty none m args :: nodesAll args
  | .call ty (some target) m args =>
    .call ty (some target) m args :: (nodes target ++ nodesAll args)
  | .index ty target i args => .index ty target i args :: (nodes target ++ nodesAll args)
  | .convert ty c operand => .convert ty c operand :: nodes operand
  | .negate ty operand => .negate ty operand :: nodes operand
  | .binary ty op left right => .binary ty op left right :: (nodes left ++ nodes right)

/-- `nodes` of each tree of a list. -/
def nodesAll : List Bound → List Bound
  | [] => []
  | b :: bs => nodes b ++ nodesAll bs

end

attribute [simp] nodes nodesAll

variable {P : Bound → Prop}

theorem forall_nodesAll {bs : List Bound} :
    (∀ n ∈ nodesAll bs, P n) ↔ ∀ b ∈ bs, ∀ n ∈ b.nodes, P n := by
  induction bs with
  | nil => simp
  | cons b bs ih => rw [nodesAll, List.forall_mem_append, ih, List.forall_mem_cons]

theorem forall_nodes_call {ty : Ty} {target : Bound} {m : Method} {args : List Bound} :
    (∀ n ∈ (Bound.call ty (some target) m args).nodes, P n) ↔
      P (.call ty (some target) m args) ∧ (∀ n ∈ target.nodes, P n) ∧
        ∀ b ∈ args, ∀ n ∈ b.nodes, P n := by
  rw [nodes, List.forall_mem_cons, List.forall_mem_append, forall_nodesAll]

theorem forall_nodes_staticCall {ty : Ty} {m : Method} {args : List Bound} :
    (∀ n ∈ (Bound.call ty none m args).nodes, P n) ↔
      P (.call ty none m args) ∧ ∀ b ∈ args, ∀ n ∈ b.nodes, P n := by
  rw [nodes, List.forall_mem_cons, forall_nodesAll]

theorem forall_nodes_index {ty : Ty} {target : Bound} {i : Indexer} {args : List Bound} :
    (∀ n ∈ (Bound.index ty target i args).nodes, P n) ↔
      P (.index ty target i args) ∧ (∀ n ∈ target.nodes, P n) ∧
        ∀ b ∈ args, ∀ n ∈ b.nodes, P n := by
  rw [nodes, List.forall_mem_cons, List.forall_mem_append, forall_nodesAll]

theorem forall_nodes_convert {ty : Ty} {c : Conversion} {b : Bound} :
    (∀ n ∈ (Bound.convert ty c b).nodes, P n) ↔ P (.convert ty c b) ∧ ∀ n ∈ b.nodes, P n := by
  rw [nodes, List.forall_mem_cons]

theorem forall_nodes_negate {ty : Ty} {b : Bound} :
    (∀ n ∈ (Bound.negate ty b).nodes, P n) ↔ P (.negate ty b) ∧ ∀ n ∈ b.nodes, P n := by
  rw [nodes, List.forall_mem_cons]

theorem forall_nodes_binary {ty : Ty} {op : ArithOp} {left right : Bound} :
    (∀ n ∈ (Bound.binary ty op left right).nodes, P n) ↔
      P (.binary ty op left right) ∧ (∀ n ∈ left.nodes, P n) ∧ ∀ n ∈ right.nodes, P n := by
  rw [nodes, List.forall_mem_cons, List.forall_mem_append]

/-! ## Simplification -/

/-- The value of a computation on constants that have `P`. -/
inductive Folded (P : Bound → Prop) : Value → Prop
  | convert {ty : Ty} {c : Conversion} {v w : Value} :
    P (.const ty v) → convertConst? c v = some w → Folded P w
  | negate {ty : Ty} {v w : Value} : P (.const ty v) → v.negate = .ok w → Folded P w
  | arith {ty ty' : Ty} {op : ArithOp} {l r w : Value} :
    P (.const ty l) → P (.const ty' r) → Value.arith op l r = .ok w → Folded P w

section

variable (hconst : ∀ ty v, Folded P v → P (.const ty v))

include hconst

theorem forall_nodes_simplifyConvert {ty : Ty} {c : Conversion} {b : Bound}
    (h : ∀ n ∈ (Bound.convert ty c b).nodes, P n) : ∀ n ∈ (simplifyConvert ty c b).nodes, P n := by
  unfold simplifyConvert
  cases hb : b.const?.bind (convertConst? c) with
  | some v =>
    obtain ⟨w, hw, hv⟩ := Option.bind_eq_some_iff.mp hb
    obtain ⟨ty', rfl⟩ := const?_eq_some hw
    exact List.forall_mem_singleton.mpr (hconst ty v (.convert (h (.const ty' w) (by simp)) hv))
  | none => exact h

/-- What a double negation leaves stood below both. -/
theorem forall_nodes_simplifyNegate {ty : Ty} {b : Bound}
    (h : ∀ n ∈ (Bound.negate ty b).nodes, P n) :
    ∀ n ∈ (simplifyNegate ty b).nodes, P n := by
  unfold simplifyNegate
  cases hb : b.const?.bind fun v => v.negate.toOption with
  | some v =>
    obtain ⟨w, hw, hv⟩ := Option.bind_eq_some_iff.mp hb
    obtain ⟨ty', rfl⟩ := const?_eq_some hw
    exact List.forall_mem_singleton.mpr
      (hconst ty v (.negate (h (.const ty' w) (by simp)) (Except.toOption_eq_some hv)))
  | none =>
    cases b with
    | negate ty' x =>
      simp only
      split
      · exact (forall_nodes_negate.mp (forall_nodes_negate.mp h).2).2
      · exact h
    | _ => exact h

theorem forall_nodes_simplifyBinary {ty : Ty} {op : ArithOp} {left right : Bound}
    (h : ∀ n ∈ (Bound.binary ty op left right).nodes, P n) :
    ∀ n ∈ (simplifyBinary ty op left right).nodes, P n := by
  unfold simplifyBinary
  cases hlr : left.const?.bind fun a => right.const?.bind fun b =>
    (Value.arith op a b).toOption with
  | some v =>
    obtain ⟨a, ha, hr⟩ := Option.bind_eq_some_iff.mp hlr
    obtain ⟨b, hb, hv⟩ := Option.bind_eq_some_iff.mp hr
    obtain ⟨ty₁, rfl⟩ := const?_eq_some ha
    obtain ⟨ty₂, rfl⟩ := const?_eq_some hb
    have hl := h (.const ty₁ a) (by simp)
    have hr := h (.const ty₂ b) (by simp)
    exact List.forall_mem_singleton.mpr (hconst ty v (.arith hl hr (Except.toOption_eq_some hv)))
  | none =>
    cases hn : neutral? op left right with
    | none => exact h
    | some x =>
      obtain ⟨-, hl, hr⟩ := forall_nodes_binary.mp h
      obtain ⟨k, -, ⟨rfl, -⟩ | ⟨rfl, -⟩⟩ := neutral?_eq_some hn
      · exact hl
      · exact hr

end

/-- A property `P` of nodes that simplification keeps in trees with `K`. -/
structure SimplifyRules (K P : Bound → Prop) : Prop where
  const (ty : Ty) (v : Value) : Folded P v → P (.const ty v)
  convert {ty : Ty} {c : Conversion} {b : Bound} : K (.convert ty c b) →
    K b ∧ (P (.convert ty c b) → P (.convert ty c b.simplify))
  negate {ty : Ty} {b : Bound} : K (.negate ty b) →
    K b ∧ (P (.negate ty b) → P (.negate ty b.simplify))
  binary {ty : Ty} {op : ArithOp} {l r : Bound} : K (.binary ty op l r) →
    (K l ∧ K r) ∧ (P (.binary ty op l r) → P (.binary ty op l.simplify r.simplify))

/-- **Simplification keeps** what all nodes of a tree have. -/
theorem SimplifyRules.forall_nodes {K : Bound → Prop} (R : SimplifyRules K P) :
    ∀ {b : Bound}, K b → (∀ n ∈ b.nodes, P n) → ∀ n ∈ b.simplify.nodes, P n
  | .convert ty c b, hK, h => by
    obtain ⟨hKb, hstep⟩ := R.convert hK
    obtain ⟨hnode, hb⟩ := forall_nodes_convert.mp h
    have hoperand := R.forall_nodes hKb hb
    simp only [simplify]
    exact forall_nodes_simplifyConvert R.const (forall_nodes_convert.mpr ⟨hstep hnode, hoperand⟩)
  | .negate ty b, hK, h => by
    obtain ⟨hKb, hstep⟩ := R.negate hK
    obtain ⟨hnode, hb⟩ := forall_nodes_negate.mp h
    have hoperand := R.forall_nodes hKb hb
    simp only [simplify]
    exact forall_nodes_simplifyNegate R.const (forall_nodes_negate.mpr ⟨hstep hnode, hoperand⟩)
  | .binary ty op left right, hK, h => by
    obtain ⟨⟨hKl, hKr⟩, hstep⟩ := R.binary hK
    obtain ⟨hnode, hl, hr⟩ := forall_nodes_binary.mp h
    have hleft := R.forall_nodes hKl hl
    have hright := R.forall_nodes hKr hr
    simp only [simplify]
    exact forall_nodes_simplifyBinary R.const
      (forall_nodes_binary.mpr ⟨hstep hnode, hleft, hright⟩)
  | .const .., _, h | .param .., _, h | .this _, _, h | .member .., _, h | .call .., _, h
  | .index .., _, h => by
    simp only [simplify]
    exact h

end Formula.Bound
