import Formula.Proofs.DecimalValue
import Formula.Proofs.Precedence
import Formula.Proofs.WellFormed

/-!
# Casts of decimals to integers

A decimal that is cast to an integer kind is cut off toward zero, passes through 128 signed bits,
and keeps the low bits of the kind. The range of the kind itself is never looked at:
`Value.decimal_casts_exact_iff` says which casts give the number or report that it does not fit. All
others wrap around in silence.
-/

namespace Formula

/-! ## Integers of a kind -/

namespace IntKind

theorem holds_toInt (k : IntKind) (x : BitVec k.width) : k.holds (k.toInt x) = true := by
  have hlow := BitVec.le_toInt x
  have hhigh := BitVec.toInt_lt (x := x)
  have hnat := x.isLt
  simp only [holds, lowest, highest, Int.pow_eq, Bool.and_eq_true, decide_eq_true_eq]
  cases k <;> simp only [toInt, signed, width, if_true, Bool.false_eq_true, if_false] at * <;> omega

/-- Every value of `k` is a value of `l`. -/
def fitsIn (k l : IntKind) : Bool := l.lowest ≤ k.lowest && k.highest ≤ l.highest

theorem holds_of_fitsIn {k l : IntKind} (hfits : k.fitsIn l = true) (x : BitVec k.width) :
    l.holds (k.toInt x) = true := by
  have hholds := k.holds_toInt x
  simp only [holds, fitsIn, Bool.and_eq_true, decide_eq_true_eq] at *
  omega

/-- Between integers, the conversions that need no cast are those that keep every value. -/
theorem widens_iff_fitsIn (k l : IntKind) : (Kind.int k).widens (.int l) = k.fitsIn l := by
  cases k <;> cases l <;> rfl

/-- A number that a kind holds is what its pattern stands for. -/
theorem toInt_wrap {k : IntKind} {i : ℤ} (h : k.holds i = true) : k.toInt (k.wrap i) = i := by
  simp only [holds, lowest, highest, Int.pow_eq, Bool.and_eq_true, decide_eq_true_eq] at h
  cases k <;> simp only [toInt, wrap, signed, width, if_true, Bool.false_eq_true, if_false,
    BitVec.toInt_ofInt, BitVec.toNat_ofInt, Int.bmod_def] at h ⊢ <;> omega

/-- All kinds are narrower than the integers that conversions pass through. -/
theorem wide_of_holds {k : IntKind} {i : ℤ} (h : k.holds i = true) :
    -2 ^ 127 ≤ i ∧ i < 2 ^ 127 := by
  simp only [holds, lowest, highest, Int.pow_eq, Bool.and_eq_true, decide_eq_true_eq] at h
  cases k <;> simp only [signed, width, if_true, Bool.false_eq_true, if_false] at h <;> omega

/-- What a cast to the kind should give for a number: the whole number toward zero, if the kind
holds it, and otherwise the error that it does not. -/
def CastsExactly (k : IntKind) (q : ℚ) (o : Outcome) : Prop :=
  if k.holds (towardZero q) then ∃ x, o = .ok (.int k x) ∧ k.toInt x = towardZero q
  else o = .error (.overflow (.int k))

end IntKind

/-! ## Conversions -/

theorem Decimal.truncate_eq (d : Decimal) : d.truncate = towardZero d.toRat := by
  have hscale : -d.scale = ((-d.scale).toNat : ℤ) - (d.scale.toNat : ℤ) := by omega
  have hquotient : d.toRat =
      ((d.mantissa * 10 ^ (-d.scale).toNat : ℤ) : ℚ) / ((10 ^ d.scale.toNat : ℤ) : ℚ) := by
    rw [toRat, hscale, zpow_sub₀ (by norm_num), zpow_natCast, zpow_natCast,
      ← mul_div_assoc, ← hscale]
    push_cast
    rfl
  rw [hquotient, towardZero_div]
  rfl

namespace Value

/-- A decimal is cut off toward zero, and is refused only if that takes more than 128 bits. -/
theorem convert_decimal (k : IntKind) (d : Decimal) :
    (Value.decimal d).convert (.int k) =
      if -2 ^ 127 ≤ towardZero d.toRat ∧ towardZero d.toRat < 2 ^ 127 then
        .ok (.ofInt k (towardZero d.toRat))
      else .error (.overflow (.int k)) := by
  rw [convert_of_number? rfl]
  simp only [Number.convert, Number.truncate?, d.truncate_eq, Number.wideLimit, Int.pow_eq]
  split_ifs <;> rfl

theorem castsExactly_convert_iff (k : IntKind) (d : Decimal) :
    k.CastsExactly d.toRat ((Value.decimal d).convert (.int k)) ↔
      k.holds (towardZero d.toRat) = true ∨
        ¬ (-2 ^ 127 ≤ towardZero d.toRat ∧ towardZero d.toRat < 2 ^ 127) := by
  rw [IntKind.CastsExactly, convert_decimal]
  by_cases hholds : k.holds (towardZero d.toRat) = true
  · rw [if_pos hholds, if_pos (IntKind.wide_of_holds hholds)]
    exact iff_of_true ⟨_, rfl, IntKind.toInt_wrap hholds⟩ (.inl hholds)
  · rw [if_neg hholds, or_iff_right hholds]
    split_ifs with hwide
    · exact iff_of_false nofun (not_not.mpr hwide)
    · exact iff_of_true rfl hwide

end Value

/-! ## Casts -/

/-- The operand of a cast with its sign. -/
def BindEnv.castOperand (env : BindEnv) (signs : List (Mark × Operator)) (operand : Node) :
    Except BuildError Bound := do
  let negative ← castSign signs
  negateIf negative (← operand.meaning env)

namespace Bound

/-- A conversion among numbers runs on the value of its operand, also if it was done beforehand. -/
theorem eval_simplifyConvert (frame : Frame) (ty : Ty) (kind : Kind) (b : Bound) :
    (simplifyConvert ty (.numeric kind) b).eval frame = b.eval frame >>= Value.convert kind := by
  unfold simplifyConvert
  split
  · rename_i v hv
    obtain ⟨w, hw, hv⟩ := Option.bind_eq_some_iff.mp hv
    obtain ⟨ty', rfl⟩ := const?_eq_some hw
    exact (Except.toOption_eq_some hv).symm
  · rfl

end Bound

/-- Invariants hold of the operand of a cast, too. -/
theorem BindEnv.Invariant.castOperand {env : BindEnv} {P : Bound → Prop} (I : env.Invariant P)
    {signs : List (Mark × Operator)} {operand : Node} (hn : operand.slots.Nodup) {b : Bound}
    (hb : env.castOperand signs operand = .ok b) : P b := by
  obtain ⟨negative, -, hb⟩ := Except.bind_ok hb
  obtain ⟨a, ha, hb⟩ := Except.bind_ok hb
  have hsame := (I.comparison (Nat.le_refl _)).negateIf_same negative ⟨rfl, I.meaning hn ha⟩
  rw [hb] at hsame
  exact hsame.2

namespace Node

variable {mark typeMark : Mark} {target : TypeName} {signs : List (Mark × Operator)}
  {operand : Node}

theorem meaning_cast (env : BindEnv) (mark typeMark : Mark) (target : TypeName)
    (signs : List (Mark × Operator)) (operand : Node) :
    (Node.cast mark typeMark target signs operand).meaning env =
      (env.castOperand signs operand >>= fun b => env.castBound b target >>= fun c =>
        env.bounded (env.finish c)) := by
  simp only [meaning, task, kept, BindMonad.keep, BindEnv.bindCast, BindEnv.castOperand,
    Except.ofExcept_eq, bind_assoc, pure_bind]

/-- A cast of a number to another kind runs the conversion on the value of the operand. -/
theorem meaning_numeric_cast {env : BindEnv} {source kind : Kind} {b : Bound}
    (htarget : env.host.resolve target = some (.numeric kind))
    (hb : env.castOperand signs operand = .ok b) (hkinded : b.Kinded) (hty : b.ty = .numeric source)
    (hne : source ≠ kind) :
    ∃ c, UpToLimits ((Node.cast mark typeMark target signs operand).meaning env) (.ok c) ∧
      c.ty = .numeric kind ∧ ∀ frame v, b.eval frame = .ok v → c.eval frame = v.convert kind := by
  let plain : Bound := .convert (.numeric kind) (.numeric kind) b
  have hcast : env.castBound b target = .ok plain := by
    unfold BindEnv.castBound
    simp only [htarget, hty, Ty.numeric.injEq, hne, if_false]
    rfl
  have hplain : plain.Kinded := ⟨hkinded, rfl⟩
  refine ⟨env.finish plain, ?_, ?_, ?_⟩
  · rw [meaning_cast, hb]
    change UpToLimits (env.castBound b target >>= fun c => env.bounded (env.finish c)) _
    rw [hcast]
    exact .bounded env _
  · unfold BindEnv.finish
    split
    · exact (Bound.simplify_refines hplain).1.ty_eq
    · rfl
  · intro frame v hv
    unfold BindEnv.finish
    split
    · -- a constant operand was converted beforehand only if the conversion does not fail
      change (Bound.simplifyConvert _ _ b.simplify).eval frame = _
      rw [Bound.eval_simplifyConvert, (Bound.simplify_refines hkinded).1.eval_ok hv]
      rfl
    · simp only [plain, Bound.eval, hv]
      rfl

end Node

namespace Value

/-- **Casts of decimals** give the whole number toward zero or report that it does not fit, as they
should, exactly if the kind holds that number or 128 bits do not. -/
theorem decimal_casts_exact_iff (k : IntKind) :
    (∀ d : Decimal,
      (k.CastsExactly d.toRat ((Value.decimal d).convert (.int k)) ↔
        k.holds (towardZero d.toRat) = true ∨
          ¬ (-2 ^ 127 ≤ towardZero d.toRat ∧ towardZero d.toRat < 2 ^ 127)) ∧
      (-2 ^ 127 ≤ towardZero d.toRat ∧ towardZero d.toRat < 2 ^ 127 →
        (Value.decimal d).convert (.int k) = .ok (.ofInt k (towardZero d.toRat)))) ∧
    ∀ (r : Registry) (context : Context) (maxDepth : ℕ) (simplify : Bool) (mark typeMark : Mark)
      (target : TypeName) (signs : List (Mark × Operator)) (operand : Node) (b : Bound),
      r.host.resolve target = some (.numeric (.int k)) → operand.slots.Nodup →
      (BindEnv.mk r.host context maxDepth simplify).castOperand signs operand = .ok b →
      b.ty = .numeric .decimal →
      ∃ c, UpToLimits ((Node.cast mark typeMark target signs operand).meaning
          ⟨r.host, context, maxDepth, simplify⟩) (.ok c) ∧ c.ty = .numeric (.int k) ∧
        ∀ frame d, b.eval frame = .ok (.decimal d) →
          c.eval frame = (Value.decimal d).convert (.int k) := by
  refine ⟨fun d => ⟨castsExactly_convert_iff k d, fun hwide => ?_⟩, ?_⟩
  · rw [convert_decimal, if_pos hwide]
  · intro r context maxDepth simplify mark typeMark target signs operand b htarget hdistinct hb hty
    have hkinded := ((r.wellFormed_invariant context maxDepth simplify).castOperand hdistinct hb).2
    obtain ⟨c, hc, hcty, heval⟩ := Node.meaning_numeric_cast htarget hb hkinded hty nofun
    exact ⟨c, hc, hcty, fun frame d hd => heval frame _ hd⟩

/-- A parameter of 128.9 with a minus is cast to the least `sbyte`. -/
theorem decimal_casts_exact_iff_least :
    let env : BindEnv := ⟨(Registry.standard []).host, ⟨none, [⟨"x", .numeric .decimal⟩]⟩, 8, true⟩
    let minus : List (Mark × Operator) := [(⟨2, 7⟩, .arith .sub)]
    let operand : Node := .route ⟨3, 8⟩ .scope [.member ⟨4, 8⟩ "x" []]
    ∃ c,
      UpToLimits ((Node.cast ⟨0, 0⟩ ⟨1, 1⟩ (.simple "sbyte") minus operand).meaning env) (.ok c) ∧
      c.eval ⟨none, [.decimal ⟨1289, 1⟩]⟩ = .ok (.ofInt .i8 (-128)) ∧
      IntKind.CastsExactly .i8 (-128.9) (c.eval ⟨none, [.decimal ⟨1289, 1⟩]⟩) := by
  intro env minus operand
  have hb : env.castOperand minus operand =
      .ok (.negate (.numeric .decimal) (.param (.numeric .decimal) 0)) := rfl
  have hrat : Decimal.toRat ⟨-1289, 1⟩ = -128.9 := by norm_num [Decimal.toRat]
  have hwhole : towardZero (-128.9) = -128 := by
    rw [← hrat, ← Decimal.truncate_eq]
    rfl
  obtain ⟨hdecimals, hcasts⟩ := decimal_casts_exact_iff .i8
  obtain ⟨hexact, hvalue⟩ := hdecimals ⟨-1289, 1⟩
  rw [hrat, hwhole] at hexact hvalue
  obtain ⟨c, hc, -, heval⟩ :=
    hcasts (Registry.standard []) _ 8 true ⟨0, 0⟩ ⟨1, 1⟩ (.simple "sbyte") minus
    operand _ rfl (by decide) hb rfl
  refine ⟨c, hc, ?_⟩
  rw [heval _ ⟨-1289, 1⟩ rfl]
  exact ⟨hvalue (by norm_num), hexact.mpr (.inl rfl)⟩

/-- Three hundred does not fit a `byte`, but is cast to what is left of it, 44. -/
theorem three_hundred_cast_to_byte :
    ∃ c, Binder.firstBinding ⟨(Registry.standard []).host, .standard, false⟩ ⟨none, []⟩ ⟨none, []⟩
        "(byte)300m" = .ok c ∧
      c.eval none [] = .ok (.ofInt .u8 44) ∧ ¬ IntKind.CastsExactly .u8 300 (c.eval none []) := by
  obtain ⟨c, hc, hvalue⟩ : ∃ c, Binder.firstBinding ⟨(Registry.standard []).host, .standard, false⟩
      ⟨none, []⟩ ⟨none, []⟩ "(byte)300m" = .ok c ∧ (c.eval none []).toOption.any (fun v =>
        v.kind? = some (.int .u8) ∧ v.number?.bind Number.truncate? = some 44) = true :=
    Except.exists_ok (by with_unfolding_all rfl)
  obtain ⟨v, hv, hkind, hnumber⟩ := Except.exists_ok hvalue
  obtain ⟨x, rfl⟩ := eq_int_of_kind? hkind
  have hx : IntKind.toInt .u8 x = 44 := Option.some.inj hnumber
  refine ⟨c, hc, ?_, ?_⟩
  · rw [hv, ← hx, ofInt_toInt]
  · have hwhole : towardZero 300 = 300 := by norm_num [towardZero]
    rw [IntKind.CastsExactly, hwhole, if_neg (by decide), hv]
    intro hoverflow
    cases hoverflow

end Value

end Formula
