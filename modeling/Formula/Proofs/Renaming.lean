import Formula.Bound.Eval
import Formula.Proofs.BoundTree

/-!
# Renumbering parameters

`Bound.rename f` gives the parameters of a bound tree other positions. Types, depth and
simplification do not look at positions, and the value is the same where the values at the new
positions are those at the old ones (`Bound.eval_rename`).
-/

namespace Formula.Bound

mutual

/-- The tree with the parameter at `i` moved to `f i`. -/
def rename (f : Nat → Nat) : Bound → Bound
  | .const ty v => .const ty v
  | .param ty i => .param ty (f i)
  | .this ty => .this ty
  | .member ty none m => .member ty none m
  | .member ty (some target) m => .member ty (some (rename f target)) m
  | .call ty none m args => .call ty none m (renameAll f args)
  | .call ty (some target) m args => .call ty (some (rename f target)) m (renameAll f args)
  | .index ty target i args => .index ty (rename f target) i (renameAll f args)
  | .convert ty c operand => .convert ty c (rename f operand)
  | .negate ty operand => .negate ty (rename f operand)
  | .binary ty op left right => .binary ty op (rename f left) (rename f right)

/-- `rename` of each tree of a list. -/
def renameAll (f : Nat → Nat) : List Bound → List Bound
  | [] => []
  | b :: bs => rename f b :: renameAll f bs

end

attribute [simp] rename renameAll

variable (f : Nat → Nat)

theorem renameAll_eq_map (bs : List Bound) : renameAll f bs = bs.map (rename f) := by
  induction bs with
  | nil => rfl
  | cons b bs ih => rw [renameAll, ih, List.map_cons]

theorem rename_ty (b : Bound) : (b.rename f).ty = b.ty := by
  cases b with
  | member ty target m => cases target <;> rfl
  | call ty target m args => cases target <;> rfl
  | _ => rfl

theorem rename_const? (b : Bound) : (b.rename f).const? = b.const? := by
  cases b with
  | member ty target m => cases target <;> rfl
  | call ty target m args => cases target <;> rfl
  | _ => rfl

mutual

theorem rename_depth : ∀ b : Bound, (b.rename f).depth = b.depth
  | .const .. | .param .. | .this _ | .member _ none _ => by simp [depth]
  | .member _ (some target) _ => by simp [depth, rename_depth target]
  | .call _ none _ args => by simp [depth, renameAll_maxDepth args]
  | .call _ (some target) _ args => by simp [depth, rename_depth target, renameAll_maxDepth args]
  | .index _ target _ args => by simp [depth, rename_depth target, renameAll_maxDepth args]
  | .convert _ _ operand => by simp [depth, rename_depth operand]
  | .negate _ operand => by simp [depth, rename_depth operand]
  | .binary _ _ left right => by simp [depth, rename_depth left, rename_depth right]

theorem renameAll_maxDepth : ∀ bs : List Bound, maxDepth (renameAll f bs) = maxDepth bs
  | [] => rfl
  | b :: bs => by simp [maxDepth, rename_depth b, renameAll_maxDepth bs]

end

/-! ## Simplification -/

theorem rename_neutral? (op : ArithOp) (l r : Bound) :
    neutral? op (l.rename f) (r.rename f) = (neutral? op l r).map (rename f) := by
  unfold neutral? isInteger
  rw [rename_ty, rename_const?, rename_const?]
  cases op <;> split_ifs <;> rfl

theorem rename_simplifyConvert (ty : Ty) (c : Conversion) (b : Bound) :
    (simplifyConvert ty c b).rename f = simplifyConvert ty c (b.rename f) := by
  unfold simplifyConvert
  rw [rename_const?]
  cases b.const?.bind (convertConst? c) with
  | some v => rfl
  | none => rfl

theorem rename_simplifyNegate (ty : Ty) (b : Bound) :
    (simplifyNegate ty b).rename f = simplifyNegate ty (b.rename f) := by
  unfold simplifyNegate
  rw [rename_const?]
  cases b.const?.bind fun v => v.negate.toOption with
  | some v => rfl
  | none =>
    cases b with
    | negate ty' x =>
      simp only [rename, rename_ty]
      split
      · rfl
      · rfl
    | member ty' target m => cases target <;> rfl
    | call ty' target m args => cases target <;> rfl
    | _ => rfl

theorem rename_simplifyBinary (ty : Ty) (op : ArithOp) (l r : Bound) :
    (simplifyBinary ty op l r).rename f = simplifyBinary ty op (l.rename f) (r.rename f) := by
  unfold simplifyBinary
  rw [rename_const?, rename_const?, rename_neutral?]
  cases l.const?.bind fun a => r.const?.bind fun b => (Value.arith op a b).toOption with
  | some v => rfl
  | none =>
    cases neutral? op l r with
    | some x => rfl
    | none => rfl

theorem rename_simplify : ∀ b : Bound, b.simplify.rename f = (b.rename f).simplify
  | .convert ty c b => by
    simp only [simplify, rename, rename_simplifyConvert, rename_simplify b]
  | .negate ty b => by
    simp only [simplify, rename, rename_simplifyNegate, rename_simplify b]
  | .binary ty op l r => by
    simp only [simplify, rename, rename_simplifyBinary, rename_simplify l, rename_simplify r]
  | .member _ none _ | .member _ (some _) _ | .call _ none _ _ | .call _ (some _) _ _ => by
    simp only [simplify, rename]
  | .const .. | .param .. | .this _ | .index .. => by simp only [simplify, rename]

/-! ## Evaluation -/

/-- The node reads no parameter, or one at a position with `P`. -/
def ReadsAt (P : Nat → Prop) : Bound → Prop
  | .param _ i => P i
  | _ => True

theorem ReadsAt.mono {P P' : Nat → Prop} {b : Bound} (h : b.ReadsAt P) (hP : ∀ i, P i → P' i) :
    b.ReadsAt P' := by
  cases b with
  | param ty i => exact hP i h
  | _ => trivial

/-- Simplification reads no more than was read. -/
theorem readsAt_simplifyRules (P : Nat → Prop) : SimplifyRules (fun _ => True) (ReadsAt P) where
  const _ _ _ := trivial
  convert _ := ⟨trivial, fun h => h⟩
  negate _ := ⟨trivial, fun h => h⟩
  binary _ := ⟨⟨trivial, trivial⟩, fun h => h⟩

/-- There is a value at the position `i`, and it stands at `f i` in the other frame. -/
def MovedTo (f : Nat → Nat) (frame other : Frame) (i : Nat) : Prop :=
  ∃ v, frame.values[i]? = some v ∧ other.values[f i]? = some v

variable {f} {frame other : Frame}

mutual

/-- **The value of a renumbered tree** is that of the tree, if the values that it reads were moved
along. -/
theorem eval_rename (hreceiver : other.receiver = frame.receiver) : ∀ {b : Bound},
    (∀ n ∈ b.nodes, n.ReadsAt (MovedTo f frame other)) → (b.rename f).eval other = b.eval frame
  | .const .., _ => by simp only [rename, eval]
  | .param ty i, h => by
    obtain ⟨v, hv, hv'⟩ := List.forall_mem_singleton.mp h
    simp only [rename, eval, hv, hv']
  | .this _, _ => by simp only [rename, eval, hreceiver]
  | .member _ none _, _ => by simp only [rename, eval]
  | .member _ (some target) _, h => by
    simp only [rename, eval, eval_rename hreceiver (List.forall_mem_cons.mp h).2]
  | .call _ none _ args, h => by
    simp only [rename, eval, evalAll_rename hreceiver (forall_nodes_staticCall.mp h).2]
  | .call _ (some target) _ args, h => by
    obtain ⟨-, htarget, hargs⟩ := forall_nodes_call.mp h
    simp only [rename, eval, eval_rename hreceiver htarget, evalAll_rename hreceiver hargs]
  | .index _ target _ args, h => by
    obtain ⟨-, htarget, hargs⟩ := forall_nodes_index.mp h
    simp only [rename, eval, eval_rename hreceiver htarget, evalAll_rename hreceiver hargs]
  | .convert _ _ operand, h => by
    simp only [rename, eval, eval_rename hreceiver (forall_nodes_convert.mp h).2]
  | .negate _ operand, h => by
    simp only [rename, eval, eval_rename hreceiver (forall_nodes_negate.mp h).2]
  | .binary _ _ left right, h => by
    obtain ⟨-, hl, hr⟩ := forall_nodes_binary.mp h
    simp only [rename, eval, eval_rename hreceiver hl, eval_rename hreceiver hr]

/-- `eval_rename` for each tree of a list. -/
theorem evalAll_rename (hreceiver : other.receiver = frame.receiver) : ∀ {bs : List Bound},
    (∀ b ∈ bs, ∀ n ∈ b.nodes, n.ReadsAt (MovedTo f frame other)) →
    evalAll other (renameAll f bs) = evalAll frame bs
  | [], _ => rfl
  | b :: bs, h => by
    obtain ⟨hb, hbs⟩ := List.forall_mem_cons.mp h
    simp only [renameAll, evalAll, eval_rename hreceiver hb, evalAll_rename hreceiver hbs]

end

end Formula.Bound
