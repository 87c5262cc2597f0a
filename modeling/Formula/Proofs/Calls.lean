import Formula.Proofs.AbsoluteValue
import Formula.Proofs.Overloads

/-!
# Calls

A look-up ranks overloads by costs, and the arguments are converted afterwards. There is a cost
exactly where there is a conversion, so the arguments can always be converted for what was found
(`Registry.lookups_coerce`).

Static methods and those of instances are ranked together, and only the best of them is looked at.
So a call is refused also where a method could be called that ranks behind one of the other sort
(`BindEnv.call_refused_iff`).
-/

namespace Formula

/-! ## Costs and conversions -/

namespace Registry

variable {r : Registry}

/-- Nothing is to be paid only where nothing is done. -/
theorem implicitConversion_of_cost?_zero {source target : Ty} (h : r.cost? source target = some 0) :
    r.implicitConversion source target = some .identity := by
  rw [cost?_eq, Option.map_eq_some_iff] at h
  obtain ⟨-, -, hzero⟩ := h
  by_cases heq : source = target
  · exact if_pos heq
  · have := conversionCost_pos heq
    omega

/-! ## What is found can be converted to -/

/-- The arguments convert to the parameters of a method that is found. -/
theorem findMethod_converts {ty : Ty} {name : String} {generics args params : List Ty}
    {method : Method} (h : r.findMethod ty name generics args = some (method, params)) :
    params = method.params ∧ List.Forall₂ r.Converts args params := by
  obtain ⟨e, hbest, hmade⟩ := ((r.findMethod_stableArgmin ty name generics args).some_iff _).mp h
  cases hmade
  exact ⟨rfl, hbest.spec.2.1.2⟩

/-- The indices convert to the parameters of an indexer that is found, be it that of an array. -/
theorem findIndexer_converts {ty : Ty} {args params : List Ty} {indexer : Indexer}
    (h : r.findIndexer ty args = some (indexer, params)) :
    params = indexer.params ∧ List.Forall₂ r.Converts args params := by
  by_cases harray : ∃ element rank, ty = .array element rank
  · obtain ⟨element, rank, rfl⟩ := harray
    simp only [findIndexer] at h
    split at h
    · rename_i hfits
      obtain ⟨rfl, hcosts⟩ := hfits
      cases h
      refine ⟨rfl, forall₂_replicate_iff.mpr ⟨rfl, fun a ha => ?_⟩⟩
      rw [Converts, ← cost?_isSome]
      exact List.all_eq_true.mp hcosts a ha
    · cases h
  · have hother (element : Ty) (rank : Nat) : ty ≠ .array element rank :=
      fun hty => harray ⟨element, rank, hty⟩
    obtain ⟨i, hbest, hmade⟩ := ((r.findIndexer_stableArgmin ty args hother).some_iff _).mp h
    cases hmade
    exact ⟨rfl, hbest.spec.2.1.2⟩

end Registry

theorem Bound.ConvertsTo.ty_eq {r : Registry} {b converted : Bound} {ty : Ty}
    (h : b.ConvertsTo r ty converted) :
    converted.ty = ty := by
  rcases h with ⟨hty, rfl⟩ | ⟨-, c, -, rfl⟩
  · exact hty
  · rfl

namespace BindEnv

/-- There is one argument for each parameter, and each argument is converted to its parameter. -/
structure CoercesTo (env : BindEnv) (r : Registry) (args : List Bound) (params : List Ty) :
    Prop where
  length_eq : params.length = args.length
  coerced : ∃ converted, env.coerce? args params = some converted ∧
    converted.map Bound.ty = params ∧
    List.Forall₂ (fun b c => b.ConvertsTo r c.ty c) args converted

/-- What converts to the parameters is converted to them. -/
theorem coerces_of_converts {env : BindEnv} {r : Registry} (henv : env.host = r.host)
    {args : List Bound} {params : List Ty}
    (h : List.Forall₂ r.Converts (args.map Bound.ty) params) :
    env.CoercesTo r args params := by
  induction args generalizing params with
  | nil =>
    cases h
    exact ⟨rfl, [], rfl, rfl, .nil⟩
  | cons b args ih =>
    cases h with
    | cons hb hargs =>
      obtain ⟨hlength, cs, hcs, htys, hconverted⟩ := ih hargs
      obtain ⟨c, hc, hconverts⟩ := Bound.coerceOne?_convertsTo henv hb
      refine ⟨by simp [hlength], c :: cs, ?_, by simp [hconverts.ty_eq, htys], .cons ?_ hconverted⟩
      · rw [coerce?_cons, hc, hcs]
        rfl
      · rw [hconverts.ty_eq]
        exact hconverts

end BindEnv

namespace Registry

/-- **Ranking and conversion agree.** Whatever is registered, there is a cost exactly where there is
a conversion, and no cost only where the conversion does nothing. So the arguments can be converted
for every method and every indexer that is found for their types, those of arrays included: there is
one for each parameter, and it gets the type of the parameter. -/
theorem lookups_coerce {r : Registry} {env : BindEnv} (henv : env.host = r.host) :
    (∀ source target, (r.cost? source target).isSome = (r.implicitConversion source target).isSome ∧
      (r.cost? source target = some 0 → r.implicitConversion source target = some .identity)) ∧
    (∀ ty name generics args method params,
      r.findMethod ty name generics (args.map Bound.ty) = some (method, params) →
        env.CoercesTo r args params ∧ params = method.params) ∧
    ∀ ty args indexer params, r.findIndexer ty (args.map Bound.ty) = some (indexer, params) →
      env.CoercesTo r args params ∧ params = indexer.params := by
  refine ⟨fun source target => ⟨r.cost?_isSome source target, implicitConversion_of_cost?_zero⟩,
    fun ty name generics args method params h => ?_, fun ty args indexer params h => ?_⟩
  · obtain ⟨hparams, hconverts⟩ := findMethod_converts h
    exact ⟨BindEnv.coerces_of_converts henv hconverts, hparams⟩
  · obtain ⟨hparams, hconverts⟩ := findIndexer_converts h
    exact ⟨BindEnv.coerces_of_converts henv hconverts, hparams⟩

/-- A class whose values convert to `double`, and conversions for types that convert without
them. -/
def labDeclarations : List Declaration := [
  .extend (.named none "Celsius" []) [],
  .conversion (.named none "Celsius" []) .f64 .ok,
  .conversion .i32 .f64 .ok,
  .conversion .string .object .ok,
  .extend (.named none "Lab" [])
    [.staticMethod "Mix" 0 [.f64, .f64, .object] .f64 fun args => argument args 0]]

/-- Each argument is converted, by a widening, by a declared conversion and to `object`, and both
indices of an array are widened. -/
theorem lookups_coerce_lab :
    let r := (standard []).declareAll labDeclarations
    let env : BindEnv := ⟨r.host, ⟨none, []⟩, 100, false⟩
    let args : List Bound := [.param .i32 0, .param (.named none "Celsius" []) 1, .param .string 2]
    let indices : List Bound := [.param .i32 0, .param (.int .u8) 1]
    env.host = r.host ∧
      (∃ method, r.findMethod (.named none "Lab" []) "Mix" [] (args.map Bound.ty) =
        some (method, [.f64, .f64, .object])) ∧
      env.CoercesTo r args [.f64, .f64, .object] ∧
      (∃ indexer, r.findIndexer (.array .f64 2) (indices.map Bound.ty) =
        some (indexer, [.i64, .i64])) ∧
      env.CoercesTo r indices [.i64, .i64] := by
  intro r env args indices
  obtain ⟨method, hmethod⟩ :
      ∃ method, r.findMethod (.named none "Lab" []) "Mix" [] (args.map Bound.ty) =
      some (method, [.f64, .f64, .object]) := ⟨_, rfl⟩
  obtain ⟨indexer, hindexer⟩ : ∃ indexer, r.findIndexer (.array .f64 2) (indices.map Bound.ty) =
      some (indexer, [.i64, .i64]) := ⟨_, rfl⟩
  have henv : env.host = r.host := rfl
  exact ⟨henv, ⟨method, hmethod⟩, ((lookups_coerce henv).2.1 _ _ _ _ _ _ hmethod).1,
    ⟨indexer, hindexer⟩, ((lookups_coerce henv).2.2 _ _ _ _ hindexer).1⟩

end Registry

/-! ## Calls -/

namespace BindEnv

variable {env : BindEnv} {r : Registry}

/-- Calls a method on arguments that are bound. -/
def callBound (env : BindEnv) (target : Option Bound) (owner : Ty) (name : String)
    (generics : List Ty) (args : List Bound) : Except BuildError Bound :=
  let notFound := BuildError.overloadNotFound (.call owner name generics (args.map Bound.ty))
  match env.host.findMethod owner name generics (args.map Bound.ty) with
  | none => .error notFound
  | some (method, params) =>
    if method.isStatic ≠ target.isNone then .error notFound
    else
      match env.coerce? args params with
      | none => .error notFound
      | some args => .ok (.call method.result target method args)

/-- A call whose type arguments and arguments are bound. -/
theorem callMethod_run {generics : List TypeName} {types : List Ty} {tasks : List (Task Resolving)}
    {args : List Bound} {slots next : Slots} (hgenerics : env.resolveGenerics generics = .ok types)
    (hargs : (bindAll tasks).run slots = (.ok args, next)) (target : Option Bound) (owner : Ty)
    (name : String) :
    (env.callMethod target owner name generics tasks).run slots =
      (env.callBound target owner name types args, next) := by
  unfold callMethod callBound
  rw [hgenerics, Resolving.run_bind]
  show (bindAll tasks >>= _ : Resolving Bound).run slots = _
  rw [Resolving.run_bind, hargs]
  simp only
  cases env.host.findMethod owner name types (args.map Bound.ty) with
  | none => rfl
  | some found =>
    obtain ⟨method, params⟩ := found
    simp only
    split
    · rfl
    · cases env.coerce? args params <;> rfl

end BindEnv

namespace Registry

variable (r : Registry) (owner : Ty) (name : String) (generics args : List Ty)

/-- The registered method that ranks best. -/
def BestMethod : MethodEntry → Prop :=
  FirstCheapest (r.MethodApplies owner name generics args) (methodCost owner generics args)
    (r.registered ClassEntry.methods (.of owner))

/-- A registered method of the right sort that can be called with the arguments. -/
def Usable (isStatic : Bool) (e : MethodEntry) : Prop :=
  e ∈ r.registered ClassEntry.methods (.of owner) ∧ r.MethodApplies owner name generics args e ∧
    e.method.isStatic = isStatic

theorem BestMethod.usable_iff {r : Registry} {owner : Ty} {name : String} {generics args : List Ty}
    {e : MethodEntry} (h : r.BestMethod owner name generics args e) (isStatic : Bool) :
    r.Usable owner name generics args isStatic e ↔ e.method.isStatic = isStatic :=
  ⟨fun husable => husable.2.2, fun hstatic => ⟨h.spec.1, h.spec.2.1, hstatic⟩⟩

end Registry

namespace BindEnv

variable {env : BindEnv} {r : Registry}

/-- The best method is called if it is of the right sort, and otherwise the call is refused. -/
theorem callBound_cases (henv : env.host = r.host) (target : Option Bound)
    (owner : Ty) (name : String) (generics : List Ty) (args : List Bound) :
    (∃ e converted, r.BestMethod owner name generics (args.map Bound.ty) e ∧
        e.method.isStatic = target.isNone ∧
        env.coerce? args (e.instantiate owner generics).params = some converted ∧
        env.callBound target owner name generics args =
          .ok (.call (e.instantiate owner generics).result target (e.instantiate owner generics)
            converted)) ∨
      (∀ e, r.BestMethod owner name generics (args.map Bound.ty) e →
        e.method.isStatic ≠ target.isNone) ∧
        env.callBound target owner name generics args =
          .error (.overloadNotFound (.call owner name generics (args.map Bound.ty))) := by
  have hranked := r.findMethod_stableArgmin owner name generics (args.map Bound.ty)
  have hhost : env.host.findMethod = r.findMethod := by rw [henv]; rfl
  unfold callBound
  rw [hhost]
  cases hfound : r.findMethod owner name generics (args.map Bound.ty) with
  | none =>
    refine .inr ⟨fun e he => ?_, rfl⟩
    exact (hranked.none_iff.mp hfound e he.spec.1 he.spec.2.1).elim
  | some found =>
    obtain ⟨method, params⟩ := found
    obtain ⟨-, hconverts⟩ := Registry.findMethod_converts hfound
    obtain ⟨converted, hcoerce, -⟩ := (coerces_of_converts henv hconverts).coerced
    obtain ⟨e, he, hmade⟩ := (hranked.some_iff _).mp hfound
    by_cases hstatic : method.isStatic = target.isNone
    · cases hmade
      refine .inl ⟨e, converted, he, hstatic, hcoerce, ?_⟩
      simp only [hcoerce]
      exact if_neg (not_not.mpr hstatic)
    · refine .inr ⟨fun e' he' => ?_, by simp only [hstatic, ne_eq, not_false_eq_true, if_true]⟩
      have hsame := (hranked.some_iff _).mpr ⟨e', he', rfl⟩
      rw [hfound] at hsame
      cases hsame
      exact hstatic

/-- **When a call is refused.** Take a call on a target or, without one, through the name of a type,
with type arguments and arguments that are bound. It is refused for want of an overload exactly if
the registered method that ranks best is not of the sort of the call, or none applies; otherwise it
is bound to the best one. So the refusal means that no method of that sort can be called with the
arguments exactly if such a method, where there is one, ranks best. -/
theorem call_refused_iff (henv : env.host = r.host) {generics : List TypeName} {types : List Ty}
    {tasks : List (Task Resolving)} {args : List Bound} {slots next : Slots}
    (hgenerics : env.resolveGenerics generics = .ok types)
    (hargs : (bindAll tasks).run slots = (.ok args, next)) (target : Option Bound) (owner : Ty)
    (name : String) :
    let best := r.BestMethod owner name types (args.map Bound.ty)
    let usable := r.Usable owner name types (args.map Bound.ty) target.isNone
    let outcome := (env.callMethod target owner name generics tasks).run slots
    let refused :=
      outcome = (.error (.overloadNotFound (.call owner name types (args.map Bound.ty))), next)
    (refused ↔ ∀ e, best e → ¬ usable e) ∧
      (¬ refused → ∃ e converted, best e ∧ usable e ∧
        env.coerce? args (e.instantiate owner types).params = some converted ∧
        outcome =
        (.ok (.call (e.instantiate owner types).result target (e.instantiate owner types)
          converted), next)) ∧
      ((refused → ∀ e, ¬ usable e) ↔ ((∃ e, usable e) → ∃ e, best e ∧ usable e)) := by
  intro best usable outcome refused
  have houtcome : outcome = (env.callBound target owner name types args, next) :=
    callMethod_run hgenerics hargs target owner name
  rcases callBound_cases henv target owner name types args with
    ⟨e, converted, he, hstatic, hcoerce, hcall⟩ | ⟨hother, hcall⟩
  · have husable : usable e := (he.usable_iff _).mpr hstatic
    have hnot : ¬ refused := by
      intro h
      cases (houtcome.symm.trans h).symm.trans (congrArg (·, next) hcall)
    refine ⟨⟨fun h => (hnot h).elim, fun h => (h e he husable).elim⟩, fun _ => ?_, ?_⟩
    · exact ⟨e, converted, he, husable, hcoerce, houtcome.trans (congrArg (·, next) hcall)⟩
    · exact ⟨fun _ _ => ⟨e, he, husable⟩, fun _ h => (hnot h).elim⟩
  · have hrefused : refused := houtcome.trans (congrArg (·, next) hcall)
    have hnone : ∀ e, best e → ¬ usable e :=
      fun e he husable => hother e he ((he.usable_iff _).mp husable)
    refine ⟨⟨fun _ => hnone, fun _ => hrefused⟩, fun h => (h hrefused).elim,
      fun h husable => ?_, ?_⟩
    · obtain ⟨e, husable⟩ := husable
      exact (h hrefused e husable).elim
    · intro h _ e husable
      obtain ⟨e', he', husable'⟩ := h ⟨e, husable⟩
      exact hnone e' he' husable'

end BindEnv

namespace Binder

/-- A class with a static method and one of its instances under each of two names. -/
def meterDeclaration : Declaration :=
  .extend (.named none "Meter" []) [
    .staticMethod "Of" 0 [.i32] .string fun _ => .ok (.str "static int"),
    .method "Of" 0 [.i64] .string fun _ _ => .ok (.str "long"),
    .method "To" 0 [.i32] .string fun _ _ => .ok (.str "int"),
    .staticMethod "To" 0 [.i64] .string fun _ => .ok (.str "static long")]

/-- `Meter.Of(1)` is bound to a static method, as one ranks best. -/
theorem call_refused_iff_static :
    let r := (Registry.standard []).declareAll [meterDeclaration]
    let env : BindEnv := ⟨r.host, ⟨none, []⟩, 100, false⟩
    let tasks : List (Task Resolving) := Node.tasks env [.constant ⟨0, 0⟩ (.ofInt .i32 1)]
    env.host = r.host ∧ env.resolveGenerics [] = .ok [] ∧
      ∃ args next method converted, (bindAll tasks).run (.empty 1) = (.ok args, next) ∧
        args.map Bound.ty = [.i32] ∧
        (env.callMethod none (.named none "Meter" []) "Of" [] tasks).run (.empty 1) =
          (.ok (.call method.result none method converted), next) ∧ method.isStatic = true := by
  intro r env tasks
  have henv : env.host = r.host := rfl
  have hgenerics : env.resolveGenerics [] = .ok [] := rfl
  obtain ⟨next, hargs⟩ :
      ∃ next, (bindAll tasks).run (.empty 1) = (.ok [.const .i32 (.ofInt .i32 1)], next) :=
    ⟨_, rfl⟩
  obtain ⟨e, hbest, hstatic⟩ : ∃ e, r.BestMethod (.named none "Meter" []) "Of" [] [.i32] e ∧
      e.method.isStatic = true :=
    ⟨_, ⟨[], _, rfl, ⟨⟨rfl, rfl, rfl⟩, .cons rfl .nil⟩, by simp, fun _ _ _ => Nat.zero_le _⟩, rfl⟩
  obtain ⟨hrefused, hbound, -⟩ :=
    BindEnv.call_refused_iff henv hgenerics hargs none (.named none "Meter" []) "Of"
  obtain ⟨e', converted, -, husable, -, hcall⟩ := hbound fun h =>
    hrefused.mp h e hbest ((hbest.usable_iff true).mpr hstatic)
  exact ⟨henv, hgenerics, _, next, e'.instantiate (.named none "Meter" []) [], converted,
    hargs, rfl, hcall, husable.2.2⟩

/-- A method that ranks behind one of the other sort cannot be called, neither on an instance nor
through the name of its class. -/
theorem outranked_methods_refused :
    let r := (Registry.standard []).declareAll [meterDeclaration]
    let b : Binder := ⟨r.host, .standard, false⟩
    let context : Context := ⟨none, [⟨"x", .named none "Meter" []⟩]⟩
    (∃ e, r.Usable (.named none "Meter" []) "Of" [] [.i32] false e) ∧
      (∃ e, b.compile context "x.Of(1)" = .error e ∧
        e.message = "no overload matches Meter.Of(int)") ∧
      (∃ e, r.Usable (.named none "Meter" []) "To" [] [.i32] true e) ∧
      ∃ e, b.compile context "Meter.To(1)" = .error e ∧
        e.message = "no overload matches Meter.To(int)" := by
  intro r b context
  have hinstance : (Except.error? (b.compile context "x.Of(1)")).map BuildError.message =
      some "no overload matches Meter.Of(int)" := by
    with_unfolding_all rfl
  have hstatic : (Except.error? (b.compile context "Meter.To(1)")).map BuildError.message =
      some "no overload matches Meter.To(int)" := by
    with_unfolding_all rfl
  obtain ⟨e, he, hmessage⟩ := Option.map_eq_some_iff.mp hinstance
  obtain ⟨e', he', hmessage'⟩ := Option.map_eq_some_iff.mp hstatic
  refine ⟨⟨_, .tail _ (.head _), ⟨⟨rfl, rfl, rfl⟩, .cons rfl .nil⟩, rfl⟩,
    ⟨e, Except.error?_eq_some he, hmessage⟩,
    ⟨_, .tail _ (.tail _ (.tail _ (.head _))), ⟨⟨rfl, rfl, rfl⟩, .cons rfl .nil⟩, rfl⟩, e',
    Except.error?_eq_some he', hmessage'⟩

end Binder

end Formula
