import Formula.Proofs.IntegerMagnitude
import Mathlib.Data.Int.ModEq

/-!
# Conversions among integers

An integer kind of `w` bits has one value for each number modulo `2 ^ w` (`IntKind.wrap_eq_iff`),
and a conversion between integer kinds gives the value of the number it is made from. So a detour
over kinds that are no narrower than the last one changes nothing (`Value.convertAll_eq_convert`),
and a widening loses nothing (`Value.convert_widens`).

`Value.conversions_compose` says so of values and of casts that stand one behind the other. Such
casts are arranged around the operand, the first one outermost (`Node.CastsOf`), and bound from the
inside out.
-/

namespace Formula

/-! ## Numbers modulo a power of two -/

namespace IntKind

variable {k l : IntKind} {i j : ℤ}

/-- A number has the same bit pattern as another exactly if they are congruent. -/
theorem wrap_eq_iff : k.wrap i = k.wrap j ↔ i ≡ j [ZMOD 2 ^ k.width] := by
  have hpos : (0 : ℤ) < ((2 ^ k.width : ℕ) : ℤ) := by positivity
  have hi := Int.emod_nonneg i hpos.ne'
  have hj := Int.emod_nonneg j hpos.ne'
  rw [wrap, wrap, ← BitVec.toNat_inj, BitVec.toNat_ofInt, BitVec.toNat_ofInt, Int.ModEq]
  push_cast at hi hj ⊢
  omega

/-- A bit pattern stands for a number congruent to the one it is made from. -/
theorem toInt_wrap_modEq (k : IntKind) (i : ℤ) : k.toInt (k.wrap i) ≡ i [ZMOD 2 ^ k.width] := by
  rw [← wrap_eq_iff, wrap_toInt]

/-- Patterns are told apart by the numbers they stand for, modulo `2 ^ width`. -/
theorem eq_of_toInt_modEq {x y : BitVec k.width} (h : k.toInt x ≡ k.toInt y [ZMOD 2 ^ k.width]) :
    x = y := by
  rw [← wrap_toInt k x, ← wrap_toInt k y]
  exact wrap_eq_iff.mpr h

/-- Wrapping to a kind that is no narrower comes to nothing before wrapping. -/
theorem wrap_toInt_wrap (h : l.width ≤ k.width) (i : ℤ) : l.wrap (k.toInt (k.wrap i)) = l.wrap i :=
  wrap_eq_iff.mpr ((k.toInt_wrap_modEq i).of_dvd (pow_dvd_pow 2 h))

end IntKind

/-! ## Values -/

namespace Value

variable {k l : IntKind}

theorem convert_int (k l : IntKind) (x : BitVec k.width) :
    (Value.int k x).convert (.int l) = .ok (.ofInt l (k.toInt x)) := rfl

/-- Converts to one kind after the other. -/
def convertAll (kinds : List IntKind) (v : Value) : Except RunError Value :=
  kinds.foldlM (fun v k => v.convert (.int k)) v

theorem convertAll_append (kinds kinds' : List IntKind) (v : Value) :
    convertAll (kinds ++ kinds') v = convertAll kinds v >>= convertAll kinds' :=
  List.foldlM_append

/-- A detour over kinds that are no narrower than the last one changes nothing. -/
theorem convertAll_eq_convert {kinds : List IntKind} (h : ∀ m ∈ kinds, l.width ≤ m.width)
    (k : IntKind) (x : BitVec k.width) :
    convertAll (kinds ++ [l]) (.int k x) = (Value.int k x).convert (.int l) := by
  induction kinds generalizing k with
  | nil => exact bind_pure _
  | cons m kinds ih =>
    obtain ⟨hm, hkinds⟩ := List.forall_mem_cons.mp h
    have hstep : convertAll (m :: kinds ++ [l]) (.int k x) =
        convertAll (kinds ++ [l]) (.int m (m.wrap (k.toInt x))) := rfl
    rw [hstep, ih hkinds, convert_int, convert_int, ofInt, ofInt, IntKind.wrap_toInt_wrap hm]

/-- A widening to an integer kind or to `decimal` keeps the number, and a cast brings the value
back. -/
theorem convert_widens {kind : Kind} (hkind : kind = .decimal ∨ ∃ l, kind = .int l)
    (hwidens : (Kind.int k).widens kind = true) (x : BitVec k.width) :
    ∃ w, (Value.int k x).convert kind = .ok w ∧ w.ideal? = some (k.toInt x : ℚ) ∧
      w.convert (.int k) = .ok (.int k x) := by
  rcases hkind with rfl | ⟨l, rfl⟩
  · have hwhole : towardZero (Decimal.ofInt (k.toInt x)).toRat = k.toInt x := by
      rw [← Decimal.truncate_eq]
      simp [Decimal.truncate, Decimal.ofInt]
    refine ⟨.decimal (.ofInt (k.toInt x)), rfl, congrArg some (Decimal.toRat_ofInt _), ?_⟩
    rw [convert_decimal, hwhole, if_pos (IntKind.wide_of_holds (k.holds_toInt x)), ofInt_toInt]
  · rw [IntKind.widens_iff_fitsIn] at hwidens
    have hholds := IntKind.holds_of_fitsIn hwidens x
    refine ⟨.ofInt l (k.toInt x), rfl, ideal?_ofInt hholds, ?_⟩
    rw [ofInt, convert_int, IntKind.toInt_wrap hholds, ofInt_toInt]

end Value

/-! ## Casts -/

namespace BindEnv

variable {env : BindEnv} {b : Bound} {k l : IntKind}

/-- Simplification keeps the type of a tree and what it evaluates to. -/
theorem finish_keeps (hkinded : b.Kinded) :
    (env.finish b).Kinded ∧ (env.finish b).ty = b.ty ∧
      ∀ frame v, b.eval frame = .ok v → (env.finish b).eval frame = .ok v := by
  unfold finish
  split
  · obtain ⟨hrefines, hsimplify⟩ := Bound.simplify_refines hkinded
    exact ⟨hsimplify, hrefines.ty_eq, fun frame v => hrefines.eval_ok⟩
  · exact ⟨hkinded, rfl, fun frame v hv => hv⟩

/-- A cast of an integer to an integer kind is bound, and converts what its operand evaluates to. -/
theorem castBound_int {target : TypeName} (htarget : env.host.resolve target = some (.int l))
    (hkinded : b.Kinded) (hty : b.ty = .int k) :
    ∃ c, env.castBound b target = .ok c ∧ (env.finish c).Kinded ∧ (env.finish c).ty = .int l ∧
      ∀ frame x, b.eval frame = .ok (.int k x) →
        (env.finish c).eval frame = (Value.int k x).convert (.int l) := by
  obtain ⟨c, hc, hkc, htyc, heval⟩ : ∃ c, env.castBound b target = .ok c ∧
      c.Kinded ∧ c.ty = .int l ∧
      ∀ frame x, b.eval frame = .ok (.int k x) →
        c.eval frame = (Value.int k x).convert (.int l) := by
    unfold castBound
    simp only [htarget, hty]
    by_cases hkl : k = l
    · subst hkl
      refine ⟨b, if_pos rfl, hkinded, hty, fun frame x hx => ?_⟩
      rw [hx, Value.convert_int, Value.ofInt_toInt]
    · have hne : Ty.int k ≠ Ty.int l := fun h => hkl (Kind.int.inj (Ty.numeric.inj h))
      refine ⟨.convert (.int l) (.numeric (.int l)) b, if_neg hne, ⟨hkinded, rfl⟩, rfl,
        fun frame x hx => ?_⟩
      rw [Bound.eval, hx]
      rfl
  obtain ⟨hkfinish, htyfinish, hfinish⟩ := env.finish_keeps hkc
  refine ⟨c, hc, hkfinish, htyfinish.trans htyc, fun frame x hx => ?_⟩
  have hvalue := heval frame x hx
  rw [Value.convert_int] at hvalue ⊢
  exact hfinish frame _ hvalue

end BindEnv

namespace Node

/-- Casts to types one behind the other, the first one outermost, around an operand. -/
inductive CastsOf (operand : Node) : List TypeName → Node → Prop
  | operand : CastsOf operand [] operand
  | cast {targets : List TypeName} {n : Node} (mark typeMark : Mark) (target : TypeName) :
    CastsOf operand targets n →
    CastsOf operand (target :: targets) (.cast mark typeMark target [] n)

/-- Casts of an integer to integer kinds are bound, unless a limit is exceeded, and convert what the
operand evaluates to from the inside out. -/
theorem CastsOf.meaning {env : BindEnv} {operand n : Node} {targets : List TypeName}
    {kinds : List IntKind} {b : Bound} {k : IntKind} (h : operand.CastsOf targets n)
    (htargets : List.Forall₂ (fun t k => env.host.resolve t = some (.int k)) targets kinds)
    (hb : operand.meaning env = .ok b) (hkinded : b.Kinded) (hty : b.ty = .int k) :
    ∃ c, UpToLimits (n.meaning env) (.ok c) ∧ c.Kinded ∧ c.ty = .int (kinds.headD k) ∧
      ∀ frame x, b.eval frame = .ok (.int k x) → ∃ y,
        Value.convertAll kinds.reverse (.int k x) = .ok (.int (kinds.headD k) y) ∧
          c.eval frame = .ok (.int (kinds.headD k) y) := by
  induction h generalizing kinds with
  | operand =>
    cases htargets
    exact ⟨b, .inr hb, hkinded, hty, fun frame x hx => ⟨x, rfl, hx⟩⟩
  | cast mark typeMark target _ ih =>
    obtain ⟨l, kinds, htarget, hrest, rfl⟩ := List.forall₂_cons_left_iff.mp htargets
    obtain ⟨c, hc, hkc, htyc, heval⟩ := ih hrest
    obtain ⟨d, hd, hkd, htyd, hdeval⟩ := BindEnv.castBound_int htarget hkc htyc
    refine ⟨env.finish d, ?_, hkd, htyd, fun frame x hx => ?_⟩
    · have hsigned : UpToLimits (env.castOperand [] _) (.ok c) :=
        hc.bind (g := .ok) fun a => .refl _
      rw [meaning_cast]
      refine (hsigned.bind fun b => .refl (env.castBound b target >>= fun c =>
        env.bounded (env.finish c))).trans ?_
      show UpToLimits (env.castBound c target >>= fun c => env.bounded (env.finish c)) _
      rw [hd]
      exact .bounded env _
    · obtain ⟨y, hchain, hy⟩ := heval frame x hx
      refine ⟨l.wrap ((kinds.headD k).toInt y), ?_, hdeval frame y hy⟩
      rw [List.reverse_cons, Value.convertAll_append, hchain]
      rfl

theorem CastsOf.slots_sublist {operand n : Node} {targets : List TypeName}
    (h : operand.CastsOf targets n) :
    operand.slots.Sublist n.slots := by
  induction h with
  | operand => exact .refl _
  | cast mark typeMark target _ ih => exact (ih.cons _).cons _

end Node

namespace Scope

variable {s : Scope} {o : Pending} {targets : List TypeName}

/-- Casts that wait around an operand that waits. -/
inductive WaitsAround (s : Scope) (o : Pending) : List TypeName → Pending → Prop
  | operand : WaitsAround s o [] o
  | cast {targets : List TypeName} {q : Pending} (mark typeMark : Mark) (target : TypeName) :
    WaitsAround s o targets q →
    WaitsAround s o (target :: targets) (s.pendCast mark typeMark target [] q)

theorem WaitsAround.operator? {q : Pending} (h : s.WaitsAround o targets q)
    (ho : o.node.operator? = none) :
    q.node.operator? = none := by
  cases h with
  | operand => exact ho
  | cast => rfl

theorem WaitsAround.finish {q : Pending} (h : s.WaitsAround o targets q) (depth : Nat) :
    (q.finish depth).Ends
      (fun t => ∃ operand, (∃ d k k', (o.finish d).run k = .ok (operand, k')) ∧
        operand.CastsOf targets t)
      fun _ => True := by
  induction h generalizing depth with
  | operand =>
    refine (Arranging.Ends.of_runs _).mono ?_ fun _ _ => trivial
    rintro t ⟨k, k', hrun⟩
    exact ⟨t, ⟨depth, k, k', hrun⟩, .operand⟩
  | cast mark typeMark target _ ih =>
    refine (Arranging.Ends.of_runs _).mono ?_ fun _ _ => trivial
    rintro t ⟨k, k', hrun⟩
    obtain ⟨-, -, n, hn, rfl⟩ := Scope.pendCast_ok hrun
    obtain ⟨operand, hoperand, hcasts⟩ := (ih _).ok hn
    exact ⟨operand, hoperand, .cast mark typeMark target hcasts⟩

/-- Types in parentheses before an operand become casts around it. -/
theorem casts_types {types : List Pending}
    (htypes : List.Forall₂ (fun p t => s.castTarget? p.node = some t) types targets)
    (ho : o.node.operator? = none) (htarget : s.castTarget? o.node = none) :
    (s.casts (types ++ [o])).Ends (fun qs => ∃ q, qs = [q] ∧ s.WaitsAround o targets q)
      fun _ => True := by
  induction htypes with
  | nil =>
    rw [List.nil_append, casts_of_none (List.forall_mem_singleton.mpr htarget)]
    exact .pure ⟨o, rfl, .operand⟩
  | cons hp _ ih =>
    rw [List.cons_append, casts]
    refine ih.bind ?_
    rintro _ ⟨q, rfl, hq⟩
    have hlead : leadingOperators [q] = ([], [q]) := by
      unfold leadingOperators
      split
      · rename_i mark op hnode
        have hnone := hq.operator? ho
        rw [hnode] at hnone
        cases hnone
      · rfl
    simp only [hp, hlead]
    exact (Arranging.Ends.newMark _).bind fun typeMark _ =>
      (Arranging.Ends.newMark _).bind fun mark _ =>
      .pure ⟨_, rfl, .cast mark typeMark _ hq⟩

end Scope

namespace Node

/-- A block of types in parentheses and an operand is arranged to casts around the operand. -/
theorem arrange_types {s : Scope} {types : List Node} {operand t : Node} {targets : List TypeName}
    {mark : Mark} {depth k k' : Nat}
    (htypes : List.Forall₂ (fun n t => s.castTarget? n = some t) types targets)
    (hoperator : operand.operator? = none) (htarget : s.castTarget? operand = none)
    (h : (((Node.block mark (types ++ [operand])).pend s).finish depth).run k = .ok (t, k')) :
    ∃ o n, (∃ d k k', ((operand.pend s).finish d).run k = .ok (o, k')) ∧ o.CastsOf targets n ∧
      t = .block mark [n] := by
  simp only [pend, pendAll_eq_map, List.map_append, List.map_cons, List.map_nil] at h
  obtain ⟨ps, k₁, qs, k₂, ns, hcasts, hbars, hproducts, rfl⟩ := Scope.finishBlock_ok h
  have hwait :
      List.Forall₂ (fun p t => s.castTarget? p.node = some t) (types.map (pend s)) targets := by
    rw [List.forall₂_map_left_iff]
    exact htypes.imp fun n t hn => by rwa [pend_node]
  obtain ⟨q, rfl, hq⟩ :=
    (Scope.casts_types hwait (by rwa [pend_node]) (by rwa [pend_node])).ok hcasts
  have hnone := hq.operator? (by rwa [pend_node])
  rw [Scope.bars_of_none (by simp [hnone])] at hbars
  cases Arranging.pure_ok hbars
  obtain ⟨pieces, rfl, hpieces⟩ := (finishProducts_ends (R := fun _ n => ∃ o,
    (∃ d k k', ((operand.pend s).finish d).run k = .ok (o, k')) ∧ o.CastsOf targets n)
    (List.forall_mem_singleton.mpr (hq.finish _))).ok hproducts
  obtain ⟨piece, _, ⟨items, hitems, hpiece⟩, hnil, rfl⟩ := List.forall₂_cons_left_iff.mp hpieces
  cases hnil
  obtain ⟨n, _, ⟨o, ho, hn⟩, hnil, rfl⟩ := List.forall₂_cons_left_iff.mp hitems
  cases hnil
  rcases hpiece with ⟨-, rfl⟩ | ⟨⟨hmany, -⟩, -⟩
  · exact ⟨o, n, ho, hn, rfl⟩
  · simp [productRuns] at hmany

theorem exists_targets {s : Scope} {types : List Node} {kinds : List IntKind}
    {P : TypeName → IntKind → Prop}
    (h : List.Forall₂ (fun n k => ∃ target, s.castTarget? n = some target ∧ P target k)
      types kinds) :
    ∃ targets, List.Forall₂ (fun n t => s.castTarget? n = some t) types targets ∧
      List.Forall₂ P targets kinds := by
  induction h with
  | nil => exact ⟨[], .nil, .nil⟩
  | cons hn _ ih =>
    obtain ⟨target, htarget, hP⟩ := hn
    obtain ⟨targets, htargets, hkinds⟩ := ih
    exact ⟨target :: targets, .cons htarget htargets, .cons hP hkinds⟩

/-- Types in parentheses before an operand: a block of them and the operand is bound as the
conversions of the operand, the last type first, unless a limit is exceeded. -/
theorem meaning_types {r : Registry} {b : Binder} (hhost : b.host = r.host) {context : Context}
    {types : List Node} {operand t : Node} {k l : IntKind} {kinds : List IntKind} {mark : Mark}
    {depth count count' : Nat}
    (htypes : List.Forall₂ (fun n k => ∃ target, (b.scope context).castTarget? n = some target ∧
      r.host.resolve target = some (.int k)) types (l :: kinds))
    (hoperator : operand.operator? = none) (htarget : (b.scope context).castTarget? operand = none)
    (hnumbered : (Node.block mark (types ++ [operand])).Numbered count)
    (h : (((Node.block mark (types ++ [operand])).pend (b.scope context)).finish depth).run count =
      .ok (t, count')) :
    ∃ o, (∃ d k k', ((operand.pend (b.scope context)).finish d).run k = .ok (o, k')) ∧
      ∀ e, o.meaning (b.env context) = .ok e → e.ty = .int k →
        ∃ c, UpToLimits (t.meaning (b.env context)) (.ok c) ∧ c.ty = .int l ∧
          ∀ frame x, e.eval frame = .ok (.int k x) →
            c.eval frame = Value.convertAll (kinds.reverse ++ [l]) (.int k x) := by
  obtain ⟨host, limits, simplify⟩ := b
  obtain rfl : host = r.host := hhost
  obtain ⟨targets, hcasts, hresolve⟩ := exists_targets htypes
  obtain ⟨o, n, ho, hn, rfl⟩ := arrange_types hcasts hoperator htarget h
  refine ⟨o, ho, fun e he hty => ?_⟩
  have hdistinct : o.slots.Nodup := by
    have hslots :=
      (pend_numbered _ _ depth count _ count' (by rwa [pend_node]) h).below (by rwa [pend_node])
    exact ((hn.slots_sublist.trans (slots_sublist List.mem_cons_self)).cons _).nodup hslots.1
  have hkinded :=
    ((r.wellFormed_invariant context limits.treeDepth simplify).meaning hdistinct he).2
  obtain ⟨c, hc, hkc, htyc, heval⟩ := hn.meaning hresolve he hkinded hty
  obtain ⟨-, htyfinish, hfinish⟩ := BindEnv.finish_keeps hkc
  have hoperator : n.operator? = none := by
    cases hn with
    | operand => cases hresolve
    | cast => rfl
  refine ⟨_, ?_, htyfinish.trans htyc, fun frame x hx => ?_⟩
  · rw [meaning_single hoperator]
    exact (hc.bind fun _ => .refl _).trans (.bounded _ _)
  · obtain ⟨y, hchain, hy⟩ := heval frame x hx
    rw [← List.reverse_cons, hchain]
    exact hfinish frame _ hy

end Node

namespace Value

/-- **Conversions among integers compose.** A conversion between integer kinds gives the one value
of the kind that is congruent to the number modulo `2 ^ width`. Conversions over kinds that are no
narrower than the last one give what the conversion to the last one gives. A widening to an integer
kind or to `decimal` keeps the number, and the cast back gives the value back. Casts that stand one
behind the other are bound as these conversions, unless a limit is exceeded. -/
theorem conversions_compose :
    (∀ (k l : IntKind) (x : BitVec k.width), ∃ y, (Value.int k x).convert (.int l) =
      .ok (.int l y) ∧
      l.toInt y ≡ k.toInt x [ZMOD 2 ^ l.width] ∧
        ∀ z, l.toInt z ≡ k.toInt x [ZMOD 2 ^ l.width] → z = y) ∧
    (∀ (kinds : List IntKind) (k l : IntKind) (x : BitVec k.width),
      (∀ m ∈ kinds, l.width ≤ m.width) →
      convertAll (kinds ++ [l]) (.int k x) = (Value.int k x).convert (.int l)) ∧
    (∀ (k : IntKind) (kind : Kind) (x : BitVec k.width), (kind = .decimal ∨ ∃ l, kind = .int l) →
      (Kind.int k).widens kind = true →
        ∃ w, (Value.int k x).convert kind = .ok w ∧ w.ideal? = some (k.toInt x : ℚ) ∧
          w.convert (.int k) = .ok (.int k x)) ∧
    ∀ (r : Registry) (limits : Limits) (simplify : Bool) (context : Context) (types : List Node)
      (operand t : Node) (k l : IntKind) (kinds : List IntKind) (mark : Mark)
        (depth count count' : ℕ),
      let b : Binder := ⟨r.host, limits, simplify⟩
      List.Forall₂ (fun n k => ∃ target, (b.scope context).castTarget? n = some target ∧
        r.host.resolve target = some (.int k)) types (l :: kinds) →
      operand.operator? = none → (b.scope context).castTarget? operand = none →
      (Node.block mark (types ++ [operand])).Numbered count →
      (((Node.block mark (types ++ [operand])).pend (b.scope context)).finish depth).run count =
        .ok (t, count') →
      ∃ o, (∃ d n n', ((operand.pend (b.scope context)).finish d).run n = .ok (o, n')) ∧
        ∀ e, o.meaning (b.env context) = .ok e → e.ty = .int k →
          ∃ c, UpToLimits (t.meaning (b.env context)) (.ok c) ∧ c.ty = .int l ∧
            ∀ frame x, e.eval frame = .ok (.int k x) →
              c.eval frame = convertAll (kinds.reverse ++ [l]) (.int k x) ∧
              ((∀ m ∈ kinds, l.width ≤ m.width) →
                c.eval frame = (Value.int k x).convert (.int l)) := by
  refine ⟨fun k l x => ?_, fun kinds k l x h => convertAll_eq_convert h k x,
    fun k kind x hkind hwidens => convert_widens hkind hwidens x, ?_⟩
  · refine ⟨l.wrap (k.toInt x), rfl, l.toInt_wrap_modEq _, fun z hz => ?_⟩
    exact IntKind.eq_of_toInt_modEq (hz.trans (l.toInt_wrap_modEq _).symm)
  · intro r limits simplify context types operand t k l kinds mark depth count count' b
      htypes hoperator htarget hnumbered hrun
    obtain ⟨o, ho, hbound⟩ := Node.meaning_types rfl htypes hoperator htarget hnumbered hrun
    refine ⟨o, ho, fun e he hty => ?_⟩
    obtain ⟨c, hc, htyc, heval⟩ := hbound e he hty
    refine ⟨c, hc, htyc, fun frame x hx => ⟨heval frame x hx, fun hwide => ?_⟩⟩
    rw [heval frame x hx]
    exact convertAll_eq_convert (fun m hm => hwide m (List.mem_reverse.mp hm)) k x

/-- `(byte)(long)x` takes -1 to 255, as `(byte)x` would. -/
theorem conversions_compose_detour :
    let b : Binder := ⟨(Registry.standard []).host, .standard, true⟩
    let context : Context := ⟨none, [⟨"x", .int .i8⟩]⟩
    let types : List Node := [.block ⟨2, 0⟩ [.route ⟨1, 1⟩ .scope [.member ⟨0, 1⟩ "byte" []]],
      .block ⟨5, 6⟩ [.route ⟨4, 7⟩ .scope [.member ⟨3, 7⟩ "long" []]]]
    let operand : Node := .route ⟨7, 12⟩ .scope [.member ⟨6, 12⟩ "x" []]
    Node.ofSource 128 "(byte)(long)x" = .ok (.block ⟨8, 0⟩ (types ++ [operand]), 9) ∧
      ∃ t count c, ((Node.block ⟨8, 0⟩ (types ++ [operand])).arrange (b.scope context)).run 9 =
      .ok (t, count) ∧
        t.meaning (b.env context) = .ok c ∧ c.ty = .int .u8 ∧
        c.eval ⟨none, [.ofInt .i8 (-1)]⟩ = .ok (.ofInt .u8 255) := by
  intro b context types operand
  refine ⟨by with_unfolding_all rfl, ?_⟩
  obtain ⟨-, -, -, hcasts⟩ := conversions_compose
  have htypes : List.Forall₂ (fun n k => ∃ target, (b.scope context).castTarget? n = some target ∧
      (Registry.standard []).host.resolve target = some (.int k)) types [.u8, .i64] :=
    .cons ⟨.simple "byte", by rfl, by rfl⟩ (.cons ⟨.simple "long", by rfl, by rfl⟩ .nil)
  have hok :
      ((((Node.block ⟨8, 0⟩ (types ++ [operand])).arrange (b.scope context)).run 9).toOption.bind
      fun r => (r.1.meaning (b.env context)).toOption).isSome = true := by with_unfolding_all rfl
  obtain ⟨c, hc⟩ := Option.isSome_iff_exists.mp hok
  obtain ⟨⟨t, count⟩, ht, hc⟩ := Option.bind_eq_some_iff.mp hc
  have ht := Except.toOption_eq_some ht
  have hc := Except.toOption_eq_some hc
  obtain ⟨o, ⟨d, n, n', ho⟩, hbound⟩ :=
    hcasts (Registry.standard []) .standard true context types operand t
    .i8 .u8 [.i64] ⟨8, 0⟩ 0 9 count htypes rfl rfl ⟨by decide, by decide⟩ ht
  obtain rfl : operand = o := congrArg Prod.fst (Except.ok.inj ho)
  obtain ⟨c', hlimit | hsame, hty, heval⟩ := hbound (.param (.int .i8) 0) rfl rfl
  · obtain ⟨limit, n, hlimit⟩ := hlimit
    cases hc.symm.trans hlimit
  · cases hc.symm.trans hsame
    refine ⟨t, count, c, ht, hc, hty, ?_⟩
    rw [(heval _ (IntKind.wrap .i8 (-1)) rfl).2 (by decide)]
    rfl

end Value

end Formula
