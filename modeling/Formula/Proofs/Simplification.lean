import Formula.Bound.Simplify
import Formula.Proofs.Arithmetic
import Formula.Proofs.Refinement

/-!
# Simplified trees

A simplified tree stands in for the tree it was made from: `Bound.simplify_refines`. The rewriting
of numbers relies on their kinds, which `Bound.Kinded` says of a tree: constants, conversions and
operators are of the kinds that their types name.
-/

namespace Formula

/-- The value of a computation is one that was promised for the type `ty`. -/
def Traced.Promises (frame : Frame) (ty : Ty) (x : Traced Value) : Prop :=
  ∀ v, x.outcome = .ok v → ∃ a ∈ x.actions, a.promised? = some ty ∧ a.run frame = .ok v

namespace Traced.Promises

variable {α : Type} {frame : Frame} {ty : Ty}

theorem act {a : Action} (h : a.promised? = some ty) : Promises frame ty (act frame a) :=
  fun _ hv => ⟨a, List.mem_singleton_self a, h, hv⟩

theorem bind {x : Traced α} {f : α → Traced Value} (h : ∀ w, Promises frame ty (f w)) :
    Promises frame ty (x >>= f) := by
  intro v hv
  rw [bind_outcome] at hv
  obtain ⟨w, hw, hv⟩ := Except.bind_ok hv
  obtain ⟨a, ha, hp, hr⟩ := h w v hv
  exact ⟨a, mem_bind_actions.mpr (.inr ⟨w, hw, ha⟩), hp, hr⟩

/-- A promise that is kept. -/
theorem kind {x : Traced Value} {kind : Kind} (h : Promises frame ty x) (hty : ty = .numeric kind)
    (hf : x.Faithful frame) {v : Value} (hv : x.outcome = .ok v) : v.kind? = some kind := by
  obtain ⟨a, ha, hp, hr⟩ := h v hv
  exact hf a ha kind v (hty ▸ hp) hr

end Traced.Promises

namespace Bound

open Traced

/-- The numbers of a tree are of the kinds its types name, down to the nodes of the host. -/
def Kinded : Bound → Prop
  | .const ty v => ∀ kind, ty = .numeric kind → v.kind? = some kind
  | .convert ty .identity b => b.Kinded ∧ ∀ kind, ty ≠ .numeric kind
  | .convert ty (.numeric kind) b => b.Kinded ∧ ty = .numeric kind
  | .convert _ (.custom _) b => b.Kinded
  | .negate ty b => b.Kinded ∧ ∃ kind, ty = .numeric kind ∧ b.ty = ty ∧ kind.isSigned = true
  | .binary ty op l r =>
    l.Kinded ∧ r.Kinded ∧
      ∃ kind, ty = .numeric kind ∧ l.ty = ty ∧ r.ty = ty ∧ (op = .pow → kind = .f64)
  | _ => True

/-- Whether the value of the node comes from outside: an input, or the result of a function of the
host. -/
def isForeign : Bound → Bool
  | .param .. | .this _ | .member .. | .call .. | .index .. | .convert _ (.custom _) _ => true
  | _ => false

theorem promises_of_isForeign (frame : Frame) {b : Bound} (h : b.isForeign = true) :
    Promises frame b.ty (b.evaluate frame) := by
  cases b with
  | param | this =>
    simp only [evaluate]
    exact .act rfl
  | member ty target m =>
    cases target <;> simp only [evaluate]
    · exact .act rfl
    · exact .bind fun _ => .bind fun _ => .act rfl
  | call ty target m args =>
    cases target <;> simp only [evaluate]
    · exact .bind fun _ => .act rfl
    · exact .bind fun _ => .bind fun _ => .bind fun _ => .act rfl
  | index =>
    simp only [evaluate]
    exact .bind fun _ => .bind fun _ => .bind fun _ => .act rfl
  | convert ty c b =>
    cases c <;> simp only [isForeign, Bool.false_eq_true] at h
    simp only [evaluate]
    exact .bind fun _ => .act rfl
  | _ => cases h

/-- The value of a tree is of the kind its type names, if the host keeps its promises. -/
theorem Kinded.value {frame : Frame} : ∀ {b : Bound} {kind : Kind} {v : Value}, b.Kinded →
    b.ty = .numeric kind → (b.evaluate frame).Faithful frame →
    (b.evaluate frame).outcome = .ok v → v.kind? = some kind
  | .const ty c, kind, v, hk, hty, _, hv => by
    simp only [evaluate, pure_outcome] at hv
    cases hv
    exact hk kind hty
  | .convert ty .identity b, kind, v, hk, hty, _, _ => (hk.2 kind hty).elim
  | .convert ty (.numeric k) b, kind, v, hk, hty, hf, hv => by
    simp only [evaluate, bind_outcome] at hv
    obtain ⟨w, -, hv⟩ := Except.bind_ok hv
    cases hk.2.symm.trans hty
    exact Value.convert_kind hv
  | .negate ty b, kind, v, hk, hty, hf, hv => by
    simp only [evaluate, bind_outcome] at hf hv
    obtain ⟨w, hw, hv⟩ := Except.bind_ok hv
    obtain ⟨hkb, _, -, hb, -⟩ := hk
    rw [Value.negate_kind hv]
    exact Kinded.value hkb (hb.trans hty) (faithful_bind.mp hf).1 hw
  | .binary ty op l r, kind, v, hk, hty, hf, hv => by
    simp only [evaluate, bind_outcome] at hf hv
    obtain ⟨a, ha, hv⟩ := Except.bind_ok hv
    obtain ⟨b, hb, hv⟩ := Except.bind_ok hv
    obtain ⟨hkl, hkr, k, hk, hl, hr, hpow⟩ := hk
    cases hk.symm.trans hty
    have hfl := (faithful_bind.mp hf).1
    have hfr := (faithful_bind.mp ((faithful_bind.mp hf).2 a ha)).1
    exact Value.arith_kind (Kinded.value hkl (hl.trans hty) hfl ha)
      (Kinded.value hkr (hr.trans hty) hfr hb) hpow hv
  | .param .., _, _, _, hty, hf, hv | .this _, _, _, _, hty, hf, hv
  | .member .., _, _, _, hty, hf, hv | .call .., _, _, _, hty, hf, hv
  | .index .., _, _, _, hty, hf, hv | .convert _ (.custom _) _, _, _, _, hty, hf, hv =>
    (promises_of_isForeign frame rfl).kind hty hf hv

/-! ## Steps of simplification -/

theorem depth_pos (b : Bound) : 0 < b.depth := by
  cases b with
  | member ty target m => cases target <;> simp only [depth] <;> omega
  | call ty target m args => cases target <;> simp only [depth] <;> omega
  | _ =>
    simp only [depth]
    omega

theorem const?_eq_some {b : Bound} {v : Value} (h : b.const? = some v) : ∃ ty, b = .const ty v := by
  cases b with
  | const ty w =>
    cases h
    exact ⟨ty, rfl⟩
  | _ => cases h

/-- A tree that has the same value in every frame, and does not read the receiver, is stood in for
by that value. -/
theorem Refines.const {b : Bound} {v : Value} (hv : ∀ frame, (b.evaluate frame).outcome = .ok v)
    (hr : b.usesReceiver = false) : Refines b (.const b.ty v) where
  ty_eq := rfl
  usesReceiver_eq := by rw [hr, usesReceiver]
  depth_le := b.depth_pos
  agree frame := by
    simp only [evaluate]
    refine ⟨fun w hw => ?_, fun _ => ⟨faithful_pure v, (hv frame).symm⟩⟩
    cases (hv frame).symm.trans hw
    rfl

theorem convertConst?_eq_some {c : Conversion} {v w : Value} (h : convertConst? c v = some w) :
    c.apply v = .ok w := by
  cases c with
  | identity =>
    cases h
    rfl
  | numeric kind => exact Except.toOption_eq_some h
  | custom run => cases h

theorem simplifyConvert_refines {ty : Ty} {c : Conversion} {b : Bound}
    (hk : (Bound.convert ty c b).Kinded) :
    Refines (.convert ty c b) (simplifyConvert ty c b) ∧ (simplifyConvert ty c b).Kinded := by
  unfold simplifyConvert
  cases h : b.const?.bind (convertConst? c) with
  | none => exact ⟨.refl _, hk⟩
  | some v =>
    obtain ⟨w, hw, hv⟩ := Option.bind_eq_some_iff.mp h
    obtain ⟨ty', rfl⟩ := const?_eq_some hw
    have happly := convertConst?_eq_some hv
    refine ⟨Refines.const (fun frame => ?_) rfl, fun kind hty => ?_⟩
    · simp only [evaluate, bind_outcome, pure_outcome]
      exact happly
    · cases c with
      | identity => exact (hk.2 kind hty).elim
      | numeric k =>
        cases hk.2.symm.trans hty
        exact Value.convert_kind happly
      | custom run => cases hv

/-- A tree that computes on with the value of a part, and comes back to it, is stood in for by that
part. -/
theorem Refines.of_identity {b x : Bound} (f : Frame → Value → Traced Value) (hty : x.ty = b.ty)
    (huses : x.usesReceiver = b.usesReceiver) (hdepth : x.depth ≤ b.depth)
    (heval : ∀ frame, b.evaluate frame = x.evaluate frame >>= f frame)
    (hvalue : ∀ frame v w, (f frame v).outcome = .ok w → w = v)
    (hback : ∀ frame v, (x.evaluate frame).Faithful frame → (x.evaluate frame).outcome = .ok v →
      (f frame v).outcome = .ok v) : Refines b x where
  ty_eq := hty
  usesReceiver_eq := huses
  depth_le := hdepth
  agree frame := by
    rw [heval frame]
    constructor
    · intro v hv
      rw [bind_outcome] at hv
      obtain ⟨w, hw, hv⟩ := Except.bind_ok hv
      rw [hw, hvalue frame w v hv]
    · intro hf
      have hfx := (faithful_bind.mp hf).1
      refine ⟨hfx, ?_⟩
      rw [bind_outcome]
      cases hx : (x.evaluate frame).outcome with
      | error e => rfl
      | ok v => exact (hback frame v hfx hx).symm

/-- A double negation is stood in for by its operand. -/
theorem Refines.negate_negate {ty ty' : Ty} {b : Bound}
    (hk : (Bound.negate ty (.negate ty' b)).Kinded) : Refines (.negate ty (.negate ty' b)) b := by
  obtain ⟨⟨hkb, kind, hkind, hb, hsigned⟩, _, -, hty, -⟩ := hk
  refine .of_identity
    (fun frame v => act frame (.negate ty' v) >>= fun w => act frame (.negate ty w))
    (hb.trans hty) rfl ?_ (fun frame => ?_) (fun frame v w h => ?_) fun frame v hf hv => ?_
  · simp only [depth]
    omega
  · simp only [evaluate, bind_bind]
  · rw [bind_outcome] at h
    obtain ⟨u, hu, hw⟩ := Except.bind_ok h
    cases (Value.negate_negate hu).symm.trans hw
    rfl
  · obtain ⟨w, hw⟩ := Value.negate_ok (hkb.value (hb.trans hkind) hf hv) hsigned
    simp only [bind_outcome, act_outcome, Action.run, hw]
    exact Value.negate_negate hw

theorem simplifyNegate_refines {ty : Ty} {b : Bound} (hk : (Bound.negate ty b).Kinded) :
    Refines (.negate ty b) (simplifyNegate ty b) ∧ (simplifyNegate ty b).Kinded := by
  unfold simplifyNegate
  cases h : b.const?.bind fun v => v.negate.toOption with
  | some v =>
    obtain ⟨w, hw, hv⟩ := Option.bind_eq_some_iff.mp h
    obtain ⟨ty', rfl⟩ := const?_eq_some hw
    have hneg := Except.toOption_eq_some hv
    refine ⟨Refines.const (fun frame => ?_) rfl, fun kind hty => ?_⟩
    · simp only [evaluate, bind_outcome, pure_outcome]
      exact hneg
    · obtain ⟨hkw, _, -, hty', -⟩ := hk
      rw [Value.negate_kind hneg]
      exact hkw kind (hty'.trans hty)
  | none =>
    cases b with
    | negate ty' x =>
      simp only
      split
      · exact ⟨.negate_negate hk, hk.1.1⟩
      · exact ⟨.refl _, hk⟩
    | _ => exact ⟨.refl _, hk⟩

/-- What every constant with an integer value has, in relation to values of its kind. -/
theorem exists_const_of_isInteger {n : Int} {k : IntKind} {b : Bound} {P : Value → Value → Prop}
    (h : b.isInteger n = true)
    (hP : ∀ {v z : Value}, v.kind? = some (.int k) → z.kind? = some (.int k) →
      z.toInt64? = some n → P v z) :
    ∃ ty z, b = .const ty z ∧ ∀ v : Value, v.kind? = some (.int k) → z.kind? = some (.int k) →
      P v z := by
  obtain ⟨z, hz, hn⟩ := Option.bind_eq_some_iff.mp (of_decide_eq_true h)
  obtain ⟨ty, rfl⟩ := const?_eq_some hz
  exact ⟨ty, z, rfl, fun v hv hk => hP hv hk hn⟩

private theorem kind?_any_isInteger {ty : Ty} (h : ty.kind?.any Kind.isInteger = true) :
    ∃ k, ty = .numeric (.int k) := by
  cases ty with
  | numeric kind =>
    cases kind with
    | int k => exact ⟨k, rfl⟩
    | _ => cases h
  | _ => cases h

/-- An operand that remains is joined to a constant that is neutral for its kind. -/
theorem neutral?_eq_some {op : ArithOp} {l r x : Bound} (h : neutral? op l r = some x) :
    ∃ k, l.ty = .numeric (.int k) ∧
      ((x = l ∧ ∃ ty z, r = .const ty z ∧ ∀ v : Value, v.kind? = some (.int k) →
          z.kind? = some (.int k) → Value.arith op v z = .ok v) ∨
        (x = r ∧ ∃ ty z, l = .const ty z ∧ ∀ v : Value, v.kind? = some (.int k) →
          z.kind? = some (.int k) → Value.arith op z v = .ok v)) := by
  unfold neutral? at h
  split at h
  · rename_i hint
    obtain ⟨k, hl⟩ := kind?_any_isInteger hint
    refine ⟨k, hl, ?_⟩
    cases op with
    | add =>
      simp only at h
      split at h
      · rename_i hconst
        cases h
        refine .inl ⟨rfl, exists_const_of_isInteger hconst fun hv hz hn => ?_⟩
        exact (Value.arith_zero hv hz hn).1
      · split at h
        · rename_i hconst
          cases h
          refine .inr ⟨rfl, exists_const_of_isInteger hconst fun hv hz hn => ?_⟩
          exact (Value.arith_zero hv hz hn).2.1
        · cases h
    | sub =>
      simp only at h
      split at h
      · rename_i hconst
        cases h
        refine .inl ⟨rfl, exists_const_of_isInteger hconst fun hv hz hn => ?_⟩
        exact (Value.arith_zero hv hz hn).2.2
      · cases h
    | mul =>
      simp only at h
      split at h
      · rename_i hconst
        cases h
        refine .inl ⟨rfl, exists_const_of_isInteger hconst fun hv hz hn => ?_⟩
        exact (Value.arith_one hv hz hn).1
      · split at h
        · rename_i hconst
          cases h
          refine .inr ⟨rfl, exists_const_of_isInteger hconst fun hv hz hn => ?_⟩
          exact (Value.arith_one hv hz hn).2.1
        · cases h
    | div =>
      simp only at h
      split at h
      · rename_i hconst
        cases h
        refine .inl ⟨rfl, exists_const_of_isInteger hconst fun hv hz hn => ?_⟩
        exact (Value.arith_one hv hz hn).2.2
      · cases h
    | rem | pow => cases h
  · cases h

/-- A constant that is neutral to the right. -/
theorem Refines.right_neutral {ty ty' : Ty} {op : ArithOp} {l : Bound} {z : Value} {k : IntKind}
    (hk : (Bound.binary ty op l (.const ty' z)).Kinded) (hl : l.ty = .numeric (.int k))
    (hz : ∀ v : Value, v.kind? = some (.int k) → z.kind? = some (.int k) →
      Value.arith op v z = .ok v) : Refines (.binary ty op l (.const ty' z)) l := by
  obtain ⟨hkl, hkz, _, -, hlt, hrt, -⟩ := hk
  have hkind : z.kind? = some (.int k) := hkz _ (hrt.trans (hlt.symm.trans hl))
  refine .of_identity (fun frame v => act frame (.arith ty op v z)) hlt ?_ ?_ (fun frame => ?_)
    (fun frame v w h => ?_) fun frame v hf hv => ?_
  · simp only [usesReceiver, Bool.or_false]
  · simp only [depth]
    omega
  · simp only [evaluate]
    rfl
  · obtain ⟨k', hv, hk'⟩ := Value.arith_ok h
    cases hkind.symm.trans hk'
    cases (hz v hv hkind).symm.trans h
    rfl
  · exact hz v (hkl.value hl hf hv) hkind

/-- A constant that is neutral to the left. -/
theorem Refines.left_neutral {ty ty' : Ty} {op : ArithOp} {r : Bound} {z : Value} {k : IntKind}
    (hk : (Bound.binary ty op (.const ty' z) r).Kinded) (hl : ty' = .numeric (.int k))
    (hz : ∀ v : Value, v.kind? = some (.int k) → z.kind? = some (.int k) →
      Value.arith op z v = .ok v) : Refines (.binary ty op (.const ty' z) r) r := by
  obtain ⟨hkz, hkr, _, -, hlt, hrt, -⟩ := hk
  have hkind : z.kind? = some (.int k) := hkz _ hl
  refine .of_identity (fun frame v => act frame (.arith ty op z v)) hrt ?_ ?_ (fun frame => ?_)
    (fun frame v w h => ?_) fun frame v hf hv => ?_
  · simp only [usesReceiver, Bool.false_or]
  · simp only [depth]
    omega
  · simp only [evaluate]
    rfl
  · obtain ⟨k', hk', hv⟩ := Value.arith_ok h
    cases hkind.symm.trans hk'
    cases (hz v hv hkind).symm.trans h
    rfl
  · exact hz v (hkr.value (hrt.trans (hlt.symm.trans hl)) hf hv) hkind

theorem simplifyBinary_refines {ty : Ty} {op : ArithOp} {l r : Bound}
    (hk : (Bound.binary ty op l r).Kinded) :
    Refines (.binary ty op l r) (simplifyBinary ty op l r) ∧
      (simplifyBinary ty op l r).Kinded := by
  unfold simplifyBinary
  cases h : l.const?.bind fun a => r.const?.bind fun b => (Value.arith op a b).toOption with
  | some v =>
    obtain ⟨a, ha, h⟩ := Option.bind_eq_some_iff.mp h
    obtain ⟨b, hb, h⟩ := Option.bind_eq_some_iff.mp h
    obtain ⟨_, rfl⟩ := const?_eq_some ha
    obtain ⟨_, rfl⟩ := const?_eq_some hb
    have harith := Except.toOption_eq_some h
    refine ⟨Refines.const (fun frame => ?_) rfl, fun kind hty => ?_⟩
    · simp only [evaluate, bind_outcome, pure_outcome]
      exact harith
    · obtain ⟨hka, hkb, k, hkind, hlt, hrt, hpow⟩ := hk
      cases hkind.symm.trans hty
      exact Value.arith_kind (hka _ (hlt.trans hty)) (hkb _ (hrt.trans hty)) hpow harith
  | none =>
    cases hn : neutral? op l r with
    | none => exact ⟨.refl _, hk⟩
    | some x =>
      obtain ⟨k, hl, ⟨rfl, _, z, rfl, hz⟩ | ⟨rfl, _, z, rfl, hz⟩⟩ := neutral?_eq_some hn
      · exact ⟨.right_neutral hk hl hz, hk.1⟩
      · exact ⟨.left_neutral hk hl hz, hk.2.1⟩

/-! ## Trees -/

theorem Kinded.convert {ty : Ty} {c : Conversion} {p o : Bound} (hk : (Bound.convert ty c p).Kinded)
    (ho : o.Kinded) : (Bound.convert ty c o).Kinded := by
  cases c with
  | identity | numeric => exact ⟨ho, hk.2⟩
  | custom run => exact ho

theorem Kinded.operand {ty : Ty} {c : Conversion} {b : Bound} (hk : (Bound.convert ty c b).Kinded) :
    b.Kinded := by
  cases c with
  | identity | numeric => exact hk.1
  | custom run => exact hk

/-- **Simplification stands in**: a simplified tree refines the tree. -/
theorem simplify_refines : ∀ {b : Bound}, b.Kinded → Refines b b.simplify ∧ b.simplify.Kinded
  | .convert ty c b, hk => by
    obtain ⟨hb, hkb⟩ := simplify_refines hk.operand
    obtain ⟨hconvert, hk⟩ := simplifyConvert_refines (hk.convert hkb)
    simp only [simplify]
    exact ⟨(hb.convert ty c).trans hconvert, hk⟩
  | .negate ty b, hk => by
    obtain ⟨hkb, kind, hkind, hty, hsigned⟩ := hk
    obtain ⟨hb, hkb⟩ := simplify_refines hkb
    obtain ⟨hnegate, hk⟩ := @simplifyNegate_refines ty b.simplify
      ⟨hkb, kind, hkind, hb.ty_eq.trans hty, hsigned⟩
    simp only [simplify]
    exact ⟨(hb.negate ty).trans hnegate, hk⟩
  | .binary ty op l r, hk => by
    obtain ⟨hkl, hkr, kind, hkind, hlt, hrt, hpow⟩ := hk
    obtain ⟨hl, hkl⟩ := simplify_refines hkl
    obtain ⟨hr, hkr⟩ := simplify_refines hkr
    obtain ⟨hbinary, hk⟩ := @simplifyBinary_refines ty op l.simplify r.simplify
      ⟨hkl, hkr, kind, hkind, hl.ty_eq.trans hlt, hr.ty_eq.trans hrt, hpow⟩
    simp only [simplify]
    exact ⟨(hl.binary hr ty op).trans hbinary, hk⟩
  | .const .., hk | .param .., hk | .this _, hk | .member .., hk | .call .., hk |
      .index .., hk => by
    simp only [simplify]
    exact ⟨.refl _, hk⟩

end Bound

end Formula
