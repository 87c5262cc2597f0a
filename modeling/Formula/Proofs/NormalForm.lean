import Mathlib.Logic.Relation
import Formula.Proofs.WellFormed

/-!
# Normal forms of simplification

`Bound.Rewrites`: one step of simplification, at any node above those of the host. `Bound.simplify`
takes such steps (`Bound.rewrites_simplify`) until none is left (`Bound.simplify_normal`).

`Bound.simplify_settles`: what is simplified stays as it is. Computations on constants are left only
where they fail, and neither double negations nor neutral operands of integers are left at all.
-/

namespace Formula.Bound

open Relation

/-- One step of simplification. -/
inductive Rewrites : Bound → Bound → Prop
  | foldConvert {ty ty' : Ty} {c : Conversion} {v w : Value} :
    convertConst? c v = some w → Rewrites (.convert ty c (.const ty' v)) (.const ty w)
  | foldNegate {ty ty' : Ty} {v w : Value} :
    v.negate = .ok w → Rewrites (.negate ty (.const ty' v)) (.const ty w)
  | foldBinary {ty ty₁ ty₂ : Ty} {op : ArithOp} {v₁ v₂ w : Value} :
    Value.arith op v₁ v₂ = .ok w →
      Rewrites (.binary ty op (.const ty₁ v₁) (.const ty₂ v₂)) (.const ty w)
  | cancel {ty ty' : Ty} {b : Bound} : b.ty = ty → Rewrites (.negate ty (.negate ty' b)) b
  | neutral {ty : Ty} {op : ArithOp} {l r b : Bound} :
    neutral? op l r = some b → Rewrites (.binary ty op l r) b
  | convert {ty : Ty} {c : Conversion} {b b' : Bound} :
    Rewrites b b' → Rewrites (.convert ty c b) (.convert ty c b')
  | negate {ty : Ty} {b b' : Bound} : Rewrites b b' → Rewrites (.negate ty b) (.negate ty b')
  | left {ty : Ty} {op : ArithOp} {l l' r : Bound} :
    Rewrites l l' → Rewrites (.binary ty op l r) (.binary ty op l' r)
  | right {ty : Ty} {op : ArithOp} {l r r' : Bound} :
    Rewrites r r' → Rewrites (.binary ty op l r) (.binary ty op l r')

/-- No step is left. -/
def Normal (b : Bound) : Prop := ∀ b', ¬ Rewrites b b'

theorem const?_bind_eq_some {α : Type} {b : Bound} {f : Value → Option α} {a : α}
    (h : b.const?.bind f = some a) : ∃ ty v, b = .const ty v ∧ f v = some a := by
  obtain ⟨v, hv, ha⟩ := Option.bind_eq_some_iff.mp h
  obtain ⟨ty, rfl⟩ := const?_eq_some hv
  exact ⟨ty, v, rfl, ha⟩

/-! ## Simplification takes steps -/

theorem rewrites_simplifyConvert (ty : Ty) (c : Conversion) (b : Bound) :
    ReflTransGen Rewrites (.convert ty c b) (simplifyConvert ty c b) := by
  unfold simplifyConvert
  cases h : b.const?.bind (convertConst? c) with
  | none => exact .refl
  | some w =>
    obtain ⟨ty', v, rfl, hw⟩ := const?_bind_eq_some h
    exact .single (.foldConvert hw)

theorem rewrites_simplifyNegate (ty : Ty) (b : Bound) :
    ReflTransGen Rewrites (.negate ty b) (simplifyNegate ty b) := by
  unfold simplifyNegate
  cases h : b.const?.bind fun v => v.negate.toOption with
  | some w =>
    obtain ⟨ty', v, rfl, hw⟩ := const?_bind_eq_some h
    exact .single (.foldNegate (Except.toOption_eq_some hw))
  | none =>
    cases b with
    | negate ty' x =>
      simp only
      split
      · exact .single (.cancel ‹_›)
      · exact .refl
    | _ => exact .refl

theorem rewrites_simplifyBinary (ty : Ty) (op : ArithOp) (l r : Bound) :
    ReflTransGen Rewrites (.binary ty op l r) (simplifyBinary ty op l r) := by
  unfold simplifyBinary
  cases h : l.const?.bind fun a => r.const?.bind fun b => (Value.arith op a b).toOption with
  | some w =>
    obtain ⟨ty₁, v₁, rfl, hr⟩ := const?_bind_eq_some h
    obtain ⟨ty₂, v₂, rfl, hw⟩ := const?_bind_eq_some hr
    exact .single (.foldBinary (Except.toOption_eq_some hw))
  | none =>
    cases hn : neutral? op l r with
    | none => exact .refl
    | some b => exact .single (.neutral hn)

/-- Steps of the operands first, then those of the node. -/
theorem rewrites_simplify : ∀ b : Bound, ReflTransGen Rewrites b b.simplify
  | .convert ty c b => by
    rw [simplify]
    exact ((rewrites_simplify b).lift (Bound.convert ty c) fun _ _ => Rewrites.convert).trans
      (rewrites_simplifyConvert ty c b.simplify)
  | .negate ty b => by
    rw [simplify]
    exact ((rewrites_simplify b).lift (Bound.negate ty) fun _ _ => Rewrites.negate).trans
      (rewrites_simplifyNegate ty b.simplify)
  | .binary ty op l r => by
    rw [simplify]
    have hl := (rewrites_simplify l).lift (Bound.binary ty op · r) fun _ _ => Rewrites.left
    have hr := (rewrites_simplify r).lift (Bound.binary ty op l.simplify) fun _ _ => Rewrites.right
    exact (hl.trans hr).trans (rewrites_simplifyBinary ty op l.simplify r.simplify)
  | .const .. | .param .. | .this _ | .member .. | .call .. | .index .. => .refl

/-! ## No step is left -/

theorem normal_const (ty : Ty) (v : Value) : (Bound.const ty v).Normal := nofun

theorem Normal.of_negate {ty : Ty} {b : Bound} (h : (Bound.negate ty b).Normal) : b.Normal :=
  fun _ hb => h _ (.negate hb)

theorem simplifyConvert_normal {ty : Ty} {c : Conversion} {b : Bound} (hb : b.Normal) :
    (simplifyConvert ty c b).Normal := by
  unfold simplifyConvert
  cases h : b.const?.bind (convertConst? c) with
  | some w => exact normal_const ty w
  | none =>
    intro b' hstep
    cases hstep with
    | foldConvert hw => cases h.symm.trans hw
    | convert hstep => exact hb _ hstep

theorem simplifyNegate_normal {ty : Ty} {b : Bound} (hb : b.Normal) :
    (simplifyNegate ty b).Normal := by
  unfold simplifyNegate
  cases h : b.const?.bind fun v => v.negate.toOption with
  | some w => exact normal_const ty w
  | none =>
    cases b with
    | const ty' v =>
      intro b' hstep
      cases hstep with
      | foldNegate hw =>
        simp only [const?, Option.bind_some, hw] at h
        cases h
      | negate hstep => exact hb _ hstep
    | negate ty' x =>
      simp only
      split
      · exact hb.of_negate
      · rename_i hty
        intro b' hstep
        cases hstep with
        | cancel h => exact hty h
        | negate hstep => exact hb _ hstep
    | _ =>
      intro b' hstep
      cases hstep with
      | negate hstep => exact hb _ hstep

theorem simplifyBinary_normal {ty : Ty} {op : ArithOp} {l r : Bound} (hl : l.Normal)
    (hr : r.Normal) : (simplifyBinary ty op l r).Normal := by
  unfold simplifyBinary
  cases h : l.const?.bind fun a => r.const?.bind fun b => (Value.arith op a b).toOption with
  | some w => exact normal_const ty w
  | none =>
    cases hn : neutral? op l r with
    | some b =>
      obtain ⟨_, -, ⟨rfl, -⟩ | ⟨rfl, -⟩⟩ := neutral?_eq_some hn
      · exact hl
      · exact hr
    | none =>
      intro b' hstep
      cases hstep with
      | foldBinary hw =>
        simp only [const?, Option.bind_some, hw] at h
        cases h
      | neutral h => cases hn.symm.trans h
      | left hstep => exact hl _ hstep
      | right hstep => exact hr _ hstep

/-- **Simplification ends**: no step is left. -/
theorem simplify_normal : ∀ b : Bound, b.simplify.Normal
  | .convert ty c b => by
    rw [simplify]
    exact simplifyConvert_normal (simplify_normal b)
  | .negate ty b => by
    rw [simplify]
    exact simplifyNegate_normal (simplify_normal b)
  | .binary ty op l r => by
    rw [simplify]
    exact simplifyBinary_normal (simplify_normal l) (simplify_normal r)
  | .const .. | .param .. | .this _ | .member .. | .call .. | .index .. => nofun

/-- What has no step left is not touched. -/
theorem Normal.simplify_eq {b : Bound} (h : b.Normal) : b.simplify = b := by
  rcases (rewrites_simplify b).cases_head with heq | ⟨b', hstep, -⟩
  · exact heq.symm
  · exact (h b' hstep).elim

/-! ## Types -/

/-- Negations and operators have operands of their own type, down to the nodes of the host. -/
def OwnTyped : Bound → Prop
  | .convert _ _ b => b.OwnTyped
  | .negate ty b => b.ty = ty ∧ b.OwnTyped
  | .binary ty _ l r => (l.ty = ty ∧ r.ty = ty) ∧ l.OwnTyped ∧ r.OwnTyped
  | _ => True

theorem ownTyped_of_wellFormed {r : Registry} {context : Context} :
    ∀ b : Bound, (∀ n ∈ b.nodes, n.WellFormed r context) → b.OwnTyped
  | .convert ty c b, h => ownTyped_of_wellFormed b (forall_nodes_convert.mp h).2
  | .negate ty b, h => by
    obtain ⟨⟨kind, hty, hb, -⟩, h⟩ := forall_nodes_negate.mp h
    exact ⟨hb.trans hty.symm, ownTyped_of_wellFormed b h⟩
  | .binary ty op left right, h => by
    obtain ⟨⟨kind, hty, hl, hr, -⟩, hleft, hright⟩ := forall_nodes_binary.mp h
    exact ⟨⟨hl.trans hty.symm, hr.trans hty.symm⟩, ownTyped_of_wellFormed left hleft,
      ownTyped_of_wellFormed right hright⟩
  | .const .., _ | .param .., _ | .this _, _ | .member .., _ | .call .., _ | .index .., _ => trivial

/-- A step changes neither the type of the tree nor that the types fit. -/
theorem Rewrites.ownTyped {b b' : Bound} (hstep : Rewrites b b') (h : b.OwnTyped) :
    b'.ty = b.ty ∧ b'.OwnTyped := by
  induction hstep with
  | foldConvert | foldNegate | foldBinary => exact ⟨rfl, trivial⟩
  | cancel hty => exact ⟨hty, h.2.2⟩
  | neutral hn =>
    obtain ⟨⟨hl, hr⟩, hleft, hright⟩ := h
    obtain ⟨_, -, ⟨rfl, -⟩ | ⟨rfl, -⟩⟩ := neutral?_eq_some hn
    · exact ⟨hl, hleft⟩
    · exact ⟨hr, hright⟩
  | convert _ ih => exact ⟨rfl, (ih h).2⟩
  | negate _ ih => exact ⟨rfl, (ih h.2).1.trans h.1, (ih h.2).2⟩
  | left _ ih =>
    obtain ⟨⟨hl, hr⟩, hleft, hright⟩ := h
    exact ⟨rfl, ⟨(ih hleft).1.trans hl, hr⟩, (ih hleft).2, hright⟩
  | right _ ih =>
    obtain ⟨⟨hl, hr⟩, hleft, hright⟩ := h
    exact ⟨rfl, ⟨hl, (ih hright).1.trans hr⟩, hleft, (ih hright).2⟩

theorem ownTyped_of_rewrites {b b' : Bound} (hsteps : ReflTransGen Rewrites b b')
    (h : b.OwnTyped) : b'.OwnTyped := by
  induction hsteps with
  | refl => exact h
  | tail _ hstep ih => exact (hstep.ownTyped ih).2

/-! ## What is left -/

/-- The nodes that are reached through conversions, negations and operators, each before those below
it. -/
def computed : Bound → List Bound
  | .convert ty c b => .convert ty c b :: computed b
  | .negate ty b => .negate ty b :: computed b
  | .binary ty op l r => .binary ty op l r :: (computed l ++ computed r)
  | b => [b]

/-- Whether the node is a constant. -/
def isConst (b : Bound) : Bool := b.const?.isSome

/-- A computation whose operands are all constants. What the host converts is not computed. -/
def onConstants : Bound → Bool
  | .convert _ .identity b | .convert _ (.numeric _) b | .negate _ b => b.isConst
  | .binary _ _ l r => l.isConst && r.isConst
  | _ => false

/-- The node is a constant whose value is the integer `n`. -/
def HasInteger (n : Int) (b : Bound) : Prop := ∃ ty k x, b = .const ty (.int k x) ∧ k.toInt x = n

/-- One operand is neutral for the operator: `x + 0`, `0 + x`, `x - 0`, `x * 1`, `1 * x` or
`x / 1`. -/
def HasNeutral (op : ArithOp) (l r : Bound) : Prop :=
  match op with
  | .add => HasInteger 0 r ∨ HasInteger 0 l
  | .sub => HasInteger 0 r
  | .mul => HasInteger 1 r ∨ HasInteger 1 l
  | .div => HasInteger 1 r
  | _ => False

/-- Nothing is left to be done at a node. -/
structure Settled (b : Bound) : Prop where
  /-- A computation on constants is left only if it fails. -/
  fails : b.onConstants = true → ∀ frame, ∃ e, b.eval frame = .error e
  notDouble : ∀ ty ty' x, b ≠ .negate ty (.negate ty' x)
  notNeutral : ∀ ty op l r k, b = .binary ty op l r → ty = .numeric (.int k) → ¬ HasNeutral op l r

private theorem isConst_eq_true {b : Bound} (h : b.isConst = true) : ∃ ty v, b = .const ty v := by
  obtain ⟨v, hv⟩ := Option.isSome_iff_exists.mp h
  obtain ⟨ty, rfl⟩ := const?_eq_some hv
  exact ⟨ty, v, rfl⟩

theorem HasInteger.isInteger {n : Int} {b : Bound} (hn : n = 0 ∨ n = 1) (h : HasInteger n b) :
    b.isInteger n = true := by
  obtain ⟨ty, k, x, rfl, hx⟩ := h
  rw [Bound.isInteger, decide_eq_true_iff]
  simp only [const?, Option.bind_some, Value.toInt64?, Value.number?, Value.Number.truncate?,
    Option.map_some, hx]
  rcases hn with rfl | rfl <;> rfl

theorem neutral?_of_hasNeutral {op : ArithOp} {l r : Bound} {k : IntKind}
    (hl : l.ty = .numeric (.int k)) (h : HasNeutral op l r) : ∃ b, neutral? op l r = some b := by
  have hint : l.ty.kind?.any Kind.isInteger = true := by
    rw [hl]
    rfl
  unfold neutral?
  rw [if_pos hint]
  have h0 := @HasInteger.isInteger 0
  have h1 := @HasInteger.isInteger 1
  cases op with
  | add =>
    by_cases hr : r.isInteger 0 = true
    · exact ⟨l, if_pos hr⟩
    · have hl : l.isInteger 0 = true := h0 (.inl rfl) (h.resolve_left fun h => hr (h0 (.inl rfl) h))
      exact ⟨r, (if_neg hr).trans (if_pos hl)⟩
  | sub => exact ⟨l, if_pos (h0 (.inl rfl) h)⟩
  | mul =>
    by_cases hr : r.isInteger 1 = true
    · exact ⟨l, if_pos hr⟩
    · have hl : l.isInteger 1 = true := h1 (.inr rfl) (h.resolve_left fun h => hr (h1 (.inr rfl) h))
      exact ⟨r, (if_neg hr).trans (if_pos hl)⟩
  | div => exact ⟨l, if_pos (h1 (.inr rfl) h)⟩
  | rem | pow => exact h.elim

/-- A computation on constants with a value is a step that is left. -/
theorem Normal.fails {b : Bound} (h : b.Normal) (hconst : b.onConstants = true) (frame : Frame) :
    ∃ e, b.eval frame = .error e := by
  cases heval : b.eval frame with
  | error e => exact ⟨e, rfl⟩
  | ok w =>
    exfalso
    cases b with
    | convert ty c b =>
      cases c with
      | custom run => cases hconst
      | identity =>
        obtain ⟨ty', v, rfl⟩ := isConst_eq_true hconst
        exact h _ (.foldConvert rfl)
      | numeric kind =>
        obtain ⟨ty', v, rfl⟩ := isConst_eq_true hconst
        rw [eval, eval] at heval
        have hw : convertConst? (.numeric kind) v = some w := by
          rw [convertConst?, show v.convert kind = .ok w from heval]
          rfl
        exact h _ (.foldConvert hw)
    | negate ty b =>
      obtain ⟨ty', v, rfl⟩ := isConst_eq_true hconst
      rw [eval, eval] at heval
      exact h _ (.foldNegate heval)
    | binary ty op l r =>
      obtain ⟨hl, hr⟩ := Bool.and_eq_true_iff.mp hconst
      obtain ⟨ty₁, v₁, rfl⟩ := isConst_eq_true hl
      obtain ⟨ty₂, v₂, rfl⟩ := isConst_eq_true hr
      rw [eval, eval, eval] at heval
      exact h _ (.foldBinary heval)
    | _ => cases hconst

theorem Normal.settled {b : Bound} (h : b.Normal) (hty : b.OwnTyped) : b.Settled where
  fails hconst frame := h.fails hconst frame
  notDouble ty ty' x heq := by
    subst heq
    obtain ⟨rfl, rfl, -⟩ := hty
    exact h _ (.cancel rfl)
  notNeutral ty op l r k heq hint hneutral := by
    subst heq
    obtain ⟨b, hb⟩ := neutral?_of_hasNeutral (hty.1.1.trans hint) hneutral
    exact h _ (.neutral hb)

theorem Normal.forall_computed_settled : ∀ {b : Bound}, b.Normal → b.OwnTyped →
    ∀ n ∈ b.computed, n.Settled
  | .convert ty c b, h, hty => by
    rw [computed, List.forall_mem_cons]
    exact ⟨h.settled hty, forall_computed_settled (fun _ hstep => h _ (.convert hstep)) hty⟩
  | .negate ty b, h, hty => by
    rw [computed, List.forall_mem_cons]
    exact ⟨h.settled hty, forall_computed_settled h.of_negate hty.2⟩
  | .binary ty op l r, h, hty => by
    rw [computed, List.forall_mem_cons, List.forall_mem_append]
    exact ⟨h.settled hty, forall_computed_settled (fun _ hstep => h _ (.left hstep)) hty.2.1,
      forall_computed_settled (fun _ hstep => h _ (.right hstep)) hty.2.2⟩
  | .const .., h, hty | .param .., h, hty | .this _, h, hty | .member .., h, hty
  | .call .., h, hty | .index .., h, hty => List.forall_mem_singleton.mpr (h.settled hty)

/-- **Simplification reaches a normal form**: it takes steps until none is left, so that a second
run changes nothing, and nothing is left to be done at any node it reaches. -/
theorem simplify_settles {r : Registry} {context : Context} {b : Bound}
    (h : ∀ n ∈ b.nodes, n.WellFormed r context) :
    ReflTransGen Rewrites b b.simplify ∧ b.simplify.Normal ∧ b.simplify.simplify = b.simplify ∧
      ∀ n ∈ b.simplify.computed, n.Settled := by
  have hnormal := simplify_normal b
  have hty := ownTyped_of_rewrites (rewrites_simplify b) (ownTyped_of_wellFormed b h)
  exact ⟨rewrites_simplify b, hnormal, hnormal.simplify_eq, hnormal.forall_computed_settled hty⟩

/-- Of `-(-x) + 1 / (3 - 3) * 1` there remains `x + 1 / 0`, whose quotient fails. -/
theorem simplify_settles_quotient :
    let r := Registry.standard []
    let context : Context := ⟨none, [⟨"x", .i32⟩]⟩
    let x : Bound := .param .i32 0
    let number (n : Int) : Bound := .const .i32 (.ofInt .i32 n)
    let quotient := Bound.binary .i32 .div (number 1) (.binary .i32 .sub (number 3) (number 3))
    let b := Bound.binary .i32 .add (.negate .i32 (.negate .i32 x))
      (.binary .i32 .mul quotient (number 1))
    (∀ n ∈ b.nodes, n.WellFormed r context) ∧
      b.simplify = .binary .i32 .add x (.binary .i32 .div (number 1) (number 0)) ∧
      b.simplify.simplify = b.simplify ∧ b.simplify.Normal ∧
      ∀ n ∈ b.simplify.computed, n.Settled := by
  intro r context x number quotient b
  have hnodes : ∀ n ∈ b.nodes, n.WellFormed r context := by
    simp [b, quotient, number, x, context, WellFormed, Bound.ty]
  obtain ⟨-, hnormal, hstays, hsettled⟩ := simplify_settles hnodes
  exact ⟨hnodes, rfl, hstays, hnormal, hsettled⟩

end Formula.Bound
