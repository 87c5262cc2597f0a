import Formula.Proofs.AbsoluteValue
import Formula.Proofs.FloatConversion
import Formula.Proofs.IntegerCast

/-!
# Absolute values of integers

Bars around an integer are a call of the overload of `System.Math.Abs` that is nearest in rank
(`Registry.standard_findMethod_abs`). For a signed kind that is its own overload, for an unsigned
one the next signed kind, which holds all its values. Above `ulong` there is no signed integer kind,
and the nearest overload is that of `float`, which has 24 bits for 64.

`Binder.bars_integer_exact_iff`: so absolute values of integers are exact, but for the least number
of a signed kind and for the numbers of `ulong` that are not `float`s.
-/

namespace Formula

/-! ## The overloads that are found -/

namespace Registry

variable {r r' : Registry} {ty : Ty}

theorem totalCost?_congr (h : r.conversions = r'.conversions) (args params : List Ty) :
    r.totalCost? args params = r'.totalCost? args params := by
  have hcost (source target : Ty) : r.cost? source target = r'.cost? source target := by
    unfold cost?
    rw [h]
  induction args generalizing params with
  | nil => simp only [totalCost?]
  | cons a args ih =>
    cases params with
    | nil => simp only [totalCost?]
    | cons p params => simp only [totalCost?, hcost, ih]

theorem implicitConversion_widens {k : IntKind} {kind : Kind} (h : (Kind.int k).widens kind = true)
    (hne : kind ≠ .int k) :
    r.implicitConversion (.int k) (.numeric kind) = some (.numeric kind) := by
  unfold implicitConversion
  rw [if_neg fun heq => hne (Ty.numeric.inj heq).symm]
  exact if_pos h

/-- A method is found among those of the type, by the conversions that are declared. -/
theorem findMethod_congr (hclass : r.classes.get? (.of ty) = r'.classes.get? (.of ty))
    (hconversions : r.conversions = r'.conversions) (name : String) (generics args : List Ty) :
    r.findMethod ty name generics args = r'.findMethod ty name generics args := by
  unfold findMethod
  rw [hclass]
  simp only [totalCost?_congr hconversions]

/-- Functions that are linked in belong to classes without a namespace. -/
theorem declareAll_linked (r : Registry) (linked : List FloatFunction) :
    (r.declareAll (linked.map FloatFunction.declaration)).conversions = r.conversions ∧
      ∀ key, (∀ f ∈ linked, key ≠ .named none f.owner 0) →
        (r.declareAll (linked.map FloatFunction.declaration)).classes.get? key =
          r.classes.get? key := by
  induction linked generalizing r with
  | nil => exact ⟨rfl, fun _ _ => rfl⟩
  | cons f linked ih =>
    obtain ⟨hconversions, hclasses⟩ := ih (r.declare f.declaration)
    refine ⟨hconversions, fun key hkey => ?_⟩
    have hfirst : (r.declare f.declaration).classes.get? key = r.classes.get? key := by
      show (r.classes.alter (.named none f.owner 0) _).get? key = _
      rw [Table.get?_alter, if_neg (hkey f List.mem_cons_self)]
    exact (hclasses key fun g hg => hkey g (List.mem_cons_of_mem f hg)).trans hfirst

theorem standard_contains {linked : List FloatFunction} {key : TypeKey}
    (h : ∀ f ∈ linked, key ≠ .named none f.owner 0) :
    (standard linked).classes.contains key = (empty.declareAll builtins).classes.contains key := by
  rw [Table.contains, Table.contains, standard, (declareAll_linked _ linked).2 key h]

/-- Only a linked function makes `System` a class. -/
theorem standard_resolveType_system {linked : List FloatFunction}
    (h : ∀ f ∈ linked, f.owner ≠ "System") :
    (standard linked).resolveType none "System" [] = none := by
  have hbuiltin : builtinType none "System" [] = none := by decide
  have hclass : (standard linked).classes.contains (.named none "System" 0) = false := by
    rw [standard_contains fun f hf hkey => h f hf (TypeKey.named.inj hkey).2.1.symm]
    rfl
  unfold resolveType
  rw [hbuiltin]
  exact if_neg (by rw [Bool.not_eq_true]; exact hclass)

theorem standard_resolveType_math (linked : List FloatFunction) :
    (standard linked).resolveType (some "System") "Math" [] = some mathType := by
  have hbuiltin : builtinType (some "System") "Math" [] = none := by decide
  have hclass : (standard linked).classes.contains (.named (some "System") "Math" 0) = true := by
    rw [standard_contains fun f _ hkey => by cases (TypeKey.named.inj hkey).1]
    rfl
  unfold resolveType
  rw [hbuiltin]
  exact if_pos hclass

/-- The kind whose overload of `Abs` is nearest. -/
def absKind : IntKind → Kind
  | .i8 => .int .i8
  | .u8 | .i16 => .int .i16
  | .u16 | .i32 => .int .i32
  | .u32 | .i64 => .int .i64
  | .u64 => .f32

theorem widens_absKind (k : IntKind) : (Kind.int k).widens (absKind k) = true := by
  cases k <;> decide

theorem absKind_of_signed {k : IntKind} : k.signed = true → absKind k = .int k := by
  cases k <;> decide

theorem absKind_of_unsigned {k : IntKind} (hk : k.signed = false) (hne : k ≠ .u64) :
    ∃ l, absKind k = .int l ∧ l.signed = true ∧ k.fitsIn l = true := by
  cases k with
  | u8 => exact ⟨.i16, rfl, rfl, by decide⟩
  | u16 => exact ⟨.i32, rfl, rfl, by decide⟩
  | u32 => exact ⟨.i64, rfl, rfl, by decide⟩
  | u64 => exact absurd rfl hne
  | i8 | i16 | i32 | i64 => cases hk

theorem standard_abs_params (linked : List FloatFunction) (k : IntKind) :
    ((standard linked).findMethod mathType "Abs" [] [.int k]).map Prod.snd =
      some [.numeric (absKind k)] := by
  have hsame : (standard linked).findMethod mathType "Abs" [] [.int k] =
      (standard []).findMethod mathType "Abs" [] [.int k] := by
    obtain ⟨hconversions, hclasses⟩ := declareAll_linked (empty.declareAll builtins) linked
    refine findMethod_congr (hclasses _ fun f _ hkey => ?_) hconversions "Abs" [] [.int k]
    cases (TypeKey.named.inj hkey).1
  rw [hsame]
  cases k <;> rfl

/-- What is declared for `System.Math` under the name `Abs` is the overload of a kind. -/
theorem declared_abs {linked : List FloatFunction} {owner : Ty} {item : ClassItem} {e : MethodEntry}
    (h : Declared (builtins ++ linked.map FloatFunction.declaration) owner item)
    (hkey : TypeKey.of owner = .of mathType) (he : item.method? owner = some e)
    (hname : e.method.name = "Abs") : ∃ kind, item = absItem kind := by
  obtain ⟨items, hitems, hitem⟩ := h
  rcases List.mem_append.mp hitems with hitems | hitems
  · rcases List.mem_append.mp hitems with hitems | hitems
    · obtain ⟨kind, -, hkind⟩ := List.mem_map.mp hitems
      cases hkind
      cases hkey
    · rcases List.mem_cons.mp hitems with hstring | hitems
      · cases hstring
        cases hkey
      · cases List.mem_singleton.mp hitems
        rcases List.mem_append.mp hitem with hitem | hitem
        · rcases List.mem_append.mp hitem with habs | hpick
          · obtain ⟨kind, -, rfl⟩ := List.mem_map.mp habs
            exact ⟨kind, rfl⟩
          · obtain ⟨kind, -, hpick⟩ := List.mem_flatMap.mp hpick
            simp only [pickItems, List.mem_cons, List.not_mem_nil, or_false] at hpick
            rcases hpick with rfl | rfl <;> cases he <;> simp at hname
        · simp only [List.mem_cons, List.not_mem_nil, or_false] at hitem
          rcases hitem with rfl | rfl | rfl | rfl | rfl | rfl | rfl <;> cases he <;> simp at hname
  · obtain ⟨f, -, hf⟩ := List.mem_map.mp hitems
    cases hf
    cases (TypeKey.named.inj hkey).1

/-- **The overload for an integer kind** is that of the nearest kind, and takes the magnitude of its
argument. -/
theorem standard_findMethod_abs (linked : List FloatFunction) (k : IntKind) :
    ∃ method, (standard linked).findMethod mathType "Abs" [] [.int k] =
        some (method, [.numeric (absKind k)]) ∧ method.isStatic = true ∧
      ∀ v, method.invoke none [v] = v.abs := by
  obtain ⟨⟨method, params⟩, hfound, hparams⟩ :=
    Option.map_eq_some_iff.mp (standard_abs_params linked k)
  cases hparams
  obtain ⟨entry, e, hentry, he, ⟨hname, -, -⟩, -, -, rfl⟩ := findMethod_applies hfound
  have hmade := declareAll_madeOf (declareAll_madeOf empty_madeOf builtins)
    (linked.map FloatFunction.declaration)
  obtain ⟨owner, item, ⟨hdeclared, hkey⟩, hmethod⟩ := (hmade.entry _ entry hentry).method e he
  obtain ⟨kind, rfl⟩ := declared_abs hdeclared hkey hmethod hname
  cases hmethod
  exact ⟨_, hfound, rfl, fun v => rfl⟩

end Registry

/-! ## Magnitudes -/

namespace IntKind

variable {k : IntKind}

/-- What the absolute value of an integer should be: its magnitude, and for the least integer of a
signed kind, whose magnitude the kind does not hold, that integer. -/
def HasMagnitude (k : IntKind) (x : BitVec k.width) (w : Value) : Prop :=
  if k.signed ∧ k.toInt x = k.lowest then w = .int k x else w.ideal? = some ((|k.toInt x| : ℤ) : ℚ)

private theorem holds_natAbs (hk : k.signed = true) {x : BitVec k.width}
    (hx : k.toInt x ≠ k.lowest) :
    k.holds (k.toInt x).natAbs = true := by
  have hholds := k.holds_toInt x
  simp only [holds, lowest, highest, hk, if_true, Int.pow_eq, Bool.and_eq_true,
    decide_eq_true_eq] at *
  have hpos : (0 : ℤ) < 2 ^ (k.width - 1) := by positivity
  generalize (2 : ℤ) ^ (k.width - 1) = limit at *
  omega

/-- The magnitude of the least integer has the bits of that integer. -/
theorem wrap_natAbs_lowest : k.signed = true → k.wrap k.lowest.natAbs = k.wrap k.lowest := by
  cases k <;> decide

end IntKind

namespace Value

open IntKind

theorem ideal?_ofInt {k : IntKind} {i : ℤ} (h : k.holds i = true) :
    (Value.ofInt k i).ideal? = some (i : ℚ) := by
  show some ((k.toInt (k.wrap i) : ℤ) : ℚ) = _
  rw [toInt_wrap h]

/-- The magnitude of an integer of a signed kind. -/
theorem abs_int {k : IntKind} (hk : k.signed = true) (x : BitVec k.width) :
    ∃ w, (Value.int k x).abs = .ok w ∧ k.HasMagnitude x w := by
  refine ⟨.ofInt k (k.toInt x).natAbs, if_pos hk, ?_⟩
  unfold HasMagnitude
  by_cases hx : k.toInt x = k.lowest
  · rw [if_pos ⟨hk, hx⟩, ofInt, hx, wrap_natAbs_lowest hk, ← hx, wrap_toInt]
  · rw [if_neg fun h => hx h.2, ideal?_ofInt (holds_natAbs hk hx), Int.natCast_natAbs]

/-- The magnitude of an integer of an unsigned kind, in a signed kind that holds it. -/
theorem abs_convert_int {k l : IntKind} (hk : k.signed = false) (hl : l.signed = true)
    (hfits : k.fitsIn l = true) (x : BitVec k.width) :
    ∃ w, (Value.int k x).convert (.int l) >>= Value.abs = .ok w ∧ k.HasMagnitude x w := by
  have hholds : l.holds (k.toInt x) = true := holds_of_fitsIn hfits x
  have hnonneg : 0 ≤ k.toInt x := by
    simp only [toInt, hk, Bool.false_eq_true, if_false]
    exact Int.natCast_nonneg _
  refine ⟨.ofInt l (k.toInt x), ?_, ?_⟩
  · rw [convert_of_number? rfl]
    show (Value.ofInt l (k.toInt x)).abs = _
    rw [ofInt, Value.abs, if_pos hl, toInt_wrap hholds, Int.natAbs_of_nonneg hnonneg]
    rfl
  · unfold HasMagnitude
    rw [if_neg (by simp [hk]), ideal?_ofInt hholds, abs_of_nonneg hnonneg]

/-- An integer of at most 64 bits is a `float`, by way of `double`, exactly if 24 bits and zeros
after them are enough for it. -/
theorem ideal?_ofDouble_ofInt {n : ℕ} (hn : n < 2 ^ 64) :
    (Value.f32 (Binary32.ofDouble (Binary64.ofInt n))).ideal? = some (n : ℚ) ↔
      ∃ m e : ℕ, m < 2 ^ 24 ∧ n = m * 2 ^ e := by
  have hideal (y : Float32) : (Value.f32 y).ideal? = (Binary32.decode y).toRat? :=
    Binary64.toRat?_ofSingle y
  rw [hideal]
  constructor
  · intro h
    cases hdecode : Binary32.decode (Binary32.ofDouble (Binary64.ofInt n)) with
    | infinite | nan =>
      rw [hdecode] at h
      cases h
    | finite negative m e =>
      rw [hdecode] at h
      obtain ⟨hm, -, -⟩ := FloatFormat.decode_bounds (by decide) (by decide) hdecode
      have hvalue : (n : ℚ) = m * 2 ^ e := by
        rw [← FloatValue.abs_signed negative m e, Option.some.inj h, Nat.abs_cast]
      by_cases he : 0 ≤ e
      · refine ⟨m, e.toNat, hm, ?_⟩
        rw [← Int.toNat_of_nonneg he, zpow_natCast] at hvalue
        exact_mod_cast hvalue
      · -- with bits after the point there are fewer than 24 before it
        have hle : (n : ℚ) ≤ m := by
          rw [hvalue]
          exact mul_le_of_le_one_right (Nat.cast_nonneg m)
            (zpow_le_one_of_nonpos₀ one_le_two (by omega))
        exact ⟨n, 0, lt_of_le_of_lt (by exact_mod_cast hle) hm, by simp⟩
  · rintro ⟨m, e, hm, rfl⟩
    have hdouble : FloatFormat.double.Holds (Int.natAbs (m * 2 ^ e : ℕ)) :=
      FloatFormat.holds_of_lt (hm.trans (by decide)) hn (by decide) (by decide)
    refine Binary32.toRat?_ofDouble (Binary64.toRat?_ofInt hdouble) ?_
    rw [Nat.abs_cast]
    exact FloatFormat.holds_of_lt hm hn (by decide) (by decide)

/-- There is no signed kind above `ulong`, and its integers are converted to `float`. -/
theorem abs_convert_ulong (x : BitVec 64) :
    let w := Value.f32 (Binary32.ofDouble (Binary64.ofInt x.toNat))
    (Value.int .u64 x).convert .f32 >>= Value.abs = .ok w ∧
      (IntKind.HasMagnitude .u64 x w ↔ ∃ m e : ℕ, m < 2 ^ 24 ∧ x.toNat = m * 2 ^ e) := by
  intro w
  constructor
  · rw [convert_of_number? rfl]
    show Except.ok (Value.f32 (Binary32.ofDouble (Binary64.ofInt x.toNat)).abs) = _
    rw [Binary32.abs_ofDouble_ofInt (Int.natCast_nonneg _)]
  · have hmagnitude : IntKind.HasMagnitude .u64 x w ↔ w.ideal? = some (x.toNat : ℚ) := by
      show (if _ then _ else w.ideal? = some ((|(x.toNat : ℤ)| : ℤ) : ℚ)) ↔ _
      rw [if_neg (by simp [signed]), Nat.abs_cast, Int.cast_natCast]
    rw [hmagnitude, ideal?_ofDouble_ofInt x.isLt]

/-- The magnitude of an integer, widened to the nearest kind that has an overload. -/
theorem abs_widened (k : IntKind) (x : BitVec k.width) :
    ∃ w, (if Registry.absKind k = .int k then .ok (.int k x)
        else (Value.int k x).convert (Registry.absKind k)) >>= Value.abs = .ok w ∧
      (k.HasMagnitude x w ↔ (k = .u64 → ∃ m e : ℕ, m < 2 ^ 24 ∧ x.toNat = m * 2 ^ e)) ∧
      (k = .u64 → w = .f32 (Binary32.ofDouble (Binary64.ofInt (k.toInt x)))) := by
  by_cases hk : k.signed = true
  · have hne : k ≠ .u64 := fun heq => by simp [heq, signed] at hk
    obtain ⟨w, hw, hmagnitude⟩ := abs_int hk x
    rw [if_pos (Registry.absKind_of_signed hk)]
    exact ⟨w, hw, iff_of_true hmagnitude fun heq => (hne heq).elim, fun heq => (hne heq).elim⟩
  rw [Bool.not_eq_true] at hk
  by_cases hne : k = .u64
  · subst hne
    obtain ⟨hw, hmagnitude⟩ := abs_convert_ulong x
    exact ⟨_, hw, hmagnitude.trans ⟨fun h _ => h, fun h => h rfl⟩, fun _ => rfl⟩
  · obtain ⟨l, hkind, hl, hfits⟩ := Registry.absKind_of_unsigned hk hne
    obtain ⟨w, hw, hmagnitude⟩ := abs_convert_int hk hl hfits x
    have hother : Kind.int l ≠ .int k := fun heq => by
      cases heq
      simp [hk] at hl
    rw [hkind, if_neg hother]
    exact ⟨w, hw, iff_of_true hmagnitude fun heq => (hne heq).elim, fun heq => (hne heq).elim⟩

end Value

/-! ## Bars around integers -/

namespace Bound

variable {r : Registry} {b converted : Bound} {k : IntKind} {kind : Kind}

/-- An integer is widened when it is evaluated, if it is not of the kind already. -/
theorem ConvertsTo.eval_int (h : b.ConvertsTo r (.numeric kind) converted) (hty : b.ty = .int k)
    (hwidens : (Kind.int k).widens kind = true) {frame : Frame} {v : Value}
    (hv : b.eval frame = .ok v) :
    converted.eval frame = if kind = .int k then .ok v else v.convert kind := by
  rcases h with ⟨heq, rfl⟩ | ⟨hne, c, hc, rfl⟩
  · rw [if_pos (Ty.numeric.inj (heq.symm.trans hty)), hv]
  · have hkind : kind ≠ .int k := fun heq => hne (by rw [hty, heq])
    rw [hty, Registry.implicitConversion_widens hwidens hkind] at hc
    cases hc
    rw [if_neg hkind, eval, hv]
    rfl

end Bound

namespace Binder

/-- Bars around an integer take the magnitude of what it evaluates to, widened to the nearest kind
that has an overload. -/
theorem compile_integer_bars {linked : List FloatFunction} {limits : Limits} {simplify : Bool}
    {context : Context} {source : String} {compiled : Compiled} {k : IntKind}
    (hlinked : ∀ f ∈ linked, f.owner ≠ "System")
    (h : (Binder.mk (Registry.standard linked).host limits simplify).compile context source =
      .ok compiled)
    (hty : compiled.root.ty = .int k) :
    ∃ root, UpToLimits
        ((Binder.mk (Registry.standard linked).host limits simplify).compile context
          ("|" ++ source ++ "|"))
        (.ok { compiled with root }) ∧
      ∀ frame v, compiled.root.eval frame = .ok v →
        root.eval frame = (if Registry.absKind k = .int k then .ok v
          else v.convert (Registry.absKind k)) >>=
          Value.abs := by
  let env : BindEnv := (Binder.mk (Registry.standard linked).host limits simplify).env context
  have henv : env.host = (Registry.standard linked).host := rfl
  obtain ⟨method, hfound, hstatic, hinvoke⟩ := Registry.standard_findMethod_abs linked k
  rw [← hty] at hfound
  obtain ⟨-, -, -, param, hparam, -, hconverts⟩ := Registry.findMethod_abs hfound
  cases hparam
  obtain ⟨converted, hcoerce, hconverted⟩ := Bound.coerce?_single henv hconverts
  have hroute : env.absRoute compiled.root = .ok (.call method.result none method [converted]) := by
    rw [BindEnv.absRoute_free (Registry.standard_resolveType_system hlinked)
      (Registry.standard_resolveType_math linked), BindEnv.callOn_eq_ok]
    exact ⟨method, _, [converted], hfound, hstatic, hcoerce, rfl⟩
  refine ⟨.call method.result none method [converted], ?_, fun frame v hv => ?_⟩
  · have hbars :
        UpToLimits _ ((env.absRoute compiled.root).map fun root => { compiled with root }) :=
      compile_bars h
    rw [hroute] at hbars
    exact hbars
  · rw [← hconverted.eval_int hty (Registry.widens_absKind k) hv]
    simp only [Bound.eval, Bound.evalAll, bind_assoc]
    congr 1
    funext w
    exact hinvoke w

/-- **Absolute values of integers.** Bars around a text of an integer type are bound, unless a limit
is exceeded. For every integer of that type that the text evaluates to they give its magnitude, and
for the least integer of a signed kind that integer; but a `ulong` is converted to `float`, which is
exact only for those that have 24 bits with zeros after them. -/
theorem bars_integer_exact_iff {linked : List FloatFunction} {limits : Limits} {simplify : Bool}
    {context : Context} {source : String} {compiled : Compiled} {k : IntKind}
    (hlinked : ∀ f ∈ linked, f.owner ≠ "System")
    (h : (Binder.mk (Registry.standard linked).host limits simplify).compile context source =
      .ok compiled)
    (hty : compiled.root.ty = .int k)
    (hlimits : ∀ limit n,
      (Binder.mk (Registry.standard linked).host limits simplify).compile context
        ("|" ++ source ++ "|") ≠ .error (.limitExceeded limit n)) :
    ∃ bars, (Binder.mk (Registry.standard linked).host limits simplify).compile context
        ("|" ++ source ++ "|") = .ok bars ∧
      ∀ receiver values x, compiled.eval receiver values = .ok (.int k x) →
        ∃ w, bars.eval receiver values = .ok w ∧
          (k.HasMagnitude x w ↔ (k = .u64 → ∃ m e : ℕ, m < 2 ^ 24 ∧ x.toNat = m * 2 ^ e)) ∧
          (k = .u64 → w = .f32 (Binary32.ofDouble (Binary64.ofInt (k.toInt x)))) := by
  obtain ⟨root, hbars, heval⟩ := compile_integer_bars hlinked h hty
  obtain ⟨limit, n, hlimit⟩ | hbars := hbars
  · exact (hlimits limit n hlimit).elim
  refine ⟨_, hbars, fun receiver values x hx => ?_⟩
  obtain ⟨w, hw, hexact⟩ := Value.abs_widened k x
  refine ⟨w, ?_, hexact⟩
  unfold Compiled.eval at hx ⊢
  split at hx
  · cases hx
  · rename_i hvalues
    rw [if_neg hvalues, heval _ _ hx, hw]

/-- The greatest `ulong` of 24 bits, with forty zeros after them, is taken exactly. -/
theorem bars_integer_exact_iff_widest :
    let one : FloatFunction := ⟨"Functions", "one", 0, fun _ => 1⟩
    let b : Binder := ⟨(Registry.standard [one]).host, .standard, true⟩
    let context : Context := ⟨none, [⟨"x", .int .u64⟩]⟩
    ∃ bars w, b.compile context "|x|" = .ok bars ∧
      bars.eval none [.ofInt .u64 (2 ^ 64 - 2 ^ 40)] = .ok w ∧
      w.ideal? = some (2 ^ 64 - 2 ^ 40) := by
  intro one b context
  have hcompiled :
      b.compile context "x" = .ok ⟨.param (.int .u64) 0, [⟨"x", .int .u64⟩], none⟩ := by
    with_unfolding_all rfl
  have hbars : (b.compile context "|x|").toOption.isSome = true := by with_unfolding_all rfl
  obtain ⟨bars, hbars, heval⟩ :=
    bars_integer_exact_iff (by decide) hcompiled rfl fun limit n hlimit => by
    rw [show b.compile context "|x|" = _ from hlimit] at hbars
    cases hbars
  obtain ⟨w, hw, hexact, -⟩ := heval none [.ofInt .u64 (2 ^ 64 - 2 ^ 40)] _ rfl
  have hmagnitude := hexact.mpr fun _ => ⟨2 ^ 24 - 1, 40, by decide, by decide⟩
  have hvalue : IntKind.toInt .u64 (IntKind.wrap .u64 (2 ^ 64 - 2 ^ 40)) =
      2 ^ 64 - 2 ^ 40 := by decide
  refine ⟨bars, w, hbars, hw, ?_⟩
  rw [IntKind.HasMagnitude, if_neg (by simp [IntKind.signed]), hvalue] at hmagnitude
  rw [hmagnitude]
  norm_num

/-- Absolute values that are not exact: of a `ulong` of 25 bits, which is rounded; of a `byte` in
the place of an `int`, which has none; and where a function is linked into a class called
`System`. -/
theorem bars_inexact :
    let b : Binder := ⟨(Registry.standard []).host, .standard, false⟩
    let one : FloatFunction := ⟨"System", "one", 0, fun _ => 1⟩
    (∃ bars w, b.compile ⟨none, [⟨"x", .int .u64⟩]⟩ "|x|" = .ok bars ∧
      bars.eval none [.ofInt .u64 16777217] = .ok w ∧ w.ideal? = some 16777216) ∧
    (∃ bars e, b.compile ⟨none, [⟨"x", .i32⟩]⟩ "|x|" = .ok bars ∧
      bars.eval none [.ofInt .u8 5] = .error e ∧
      e.message = "expected a value of type signed number, found byte") ∧
    ∃ e, (Binder.mk (Registry.standard [one]).host .standard false).compile
      ⟨none, [⟨"x", .i32⟩]⟩ "|x|" =
        .error e ∧ e.message = "unknown identifier: System.Math" := by
  intro b one
  refine ⟨?_, ?_, ?_⟩
  · obtain ⟨bars, hbars, hvalue⟩ : ∃ bars, b.compile ⟨none, [⟨"x", .int .u64⟩]⟩ "|x|" = .ok bars ∧
        (bars.eval none [.ofInt .u64 16777217]).toOption.any
        (fun w => w.ideal? = some 16777216) = true :=
      Except.exists_ok (by with_unfolding_all rfl)
    obtain ⟨w, hw, hideal⟩ := Except.exists_ok hvalue
    exact ⟨bars, w, hbars, hw, hideal⟩
  · obtain ⟨bars, hbars, hvalue⟩ : ∃ bars, b.compile ⟨none, [⟨"x", .i32⟩]⟩ "|x|" = .ok bars ∧
        (Except.error? (bars.eval none [.ofInt .u8 5])).map RunError.message =
          some "expected a value of type signed number, found byte" :=
      Except.exists_ok (by with_unfolding_all rfl)
    obtain ⟨e, he, hmessage⟩ := Option.map_eq_some_iff.mp hvalue
    exact ⟨bars, e, hbars, Except.error?_eq_some he, hmessage⟩
  · have herror : (Except.error? ((Binder.mk (Registry.standard [one]).host .standard false).compile
        ⟨none, [⟨"x", .i32⟩]⟩ "|x|")).map BuildError.message =
        some "unknown identifier: System.Math" := by
      with_unfolding_all rfl
    obtain ⟨e, he, hmessage⟩ := Option.map_eq_some_iff.mp herror
    exact ⟨e, Except.error?_eq_some he, hmessage⟩

end Binder

end Formula
