import Formula.Proofs.Acceptance
import Formula.Proofs.BarFrame
import Formula.Proofs.DepthLimit
import Formula.Proofs.Precedence
import Formula.Proofs.ReadingFrame
import Formula.Proofs.WellFormed

/-!
# Absolute values

A text between bars is bound as the route `System.Math.Abs` on what the text is bound to
(`Binder.compile_bars`), limits apart. The route is resolved as any other that starts with a type:
at the shortest dotted name of one, and with the overload that ranks best, be it static or not.

`Binder.bars_call_abs_iff`: so the bars are a call of `System.Math.Abs` unless a class is called
`System`, or the best overload is not static.
-/

namespace Formula

/-! ## The route of a pair of bars -/

namespace BindEnv

variable {env : BindEnv} {b root : Bound}

/-- Calls a method on one argument that is bound. -/
def callOn (env : BindEnv) (target : Option Bound) (owner : Ty) (name : String) (b : Bound) :
    Except BuildError Bound :=
  let notFound := BuildError.overloadNotFound (.call owner name [] [b.ty])
  match env.host.findMethod owner name [] [b.ty] with
  | none => .error notFound
  | some (method, params) =>
    if method.isStatic ≠ target.isNone then .error notFound
    else
      match env.coerce? [b] params with
      | none => .error notFound
      | some args => .ok (.call method.result target method args)

theorem callMethod_single {t : Task (Except BuildError)} (ht : t.bind = .ok b)
    (target : Option Bound) (owner : Ty) (name : String) :
    env.callMethod target owner name [] [t] = env.callOn target owner name b := by
  unfold callMethod callOn
  simp only [resolveGenerics, bindAll, ht]
  rfl

theorem callOn_eq_ok {target : Option Bound} {owner : Ty} {name : String} :
    env.callOn target owner name b = .ok root ↔
      ∃ method params args, env.host.findMethod owner name [] [b.ty] = some (method, params) ∧
        method.isStatic = target.isNone ∧ env.coerce? [b] params = some args ∧
        root = .call method.result target method args := by
  unfold callOn
  constructor
  · intro h
    simp only at h
    split at h
    · cases h
    · rename_i method params hmethod
      split at h
      · cases h
      · rename_i hstatic
        split at h
        · cases h
        · rename_i args hargs
          cases h
          exact ⟨method, params, args, hmethod, not_not.mp hstatic, hargs, rfl⟩
  · rintro ⟨method, params, args, hmethod, hstatic, hargs, rfl⟩
    simp only [hmethod, hargs]
    exact if_neg (not_not.mpr hstatic)

/-- The route `System.Math.Abs` on an argument that is bound. If `System` names a type, `Math` has
to be a static member of it, and `Abs` is called on that. -/
def absRoute (env : BindEnv) (b : Bound) : Except BuildError Bound :=
  match env.host.resolveType none "System" [] with
  | some ty => do
    let target ← env.bindStatic ty (.member default "Math" [])
    let call ← env.callOn (some target) target.ty "Abs" b
    env.bounded call
  | none =>
    match env.host.resolveType (some "System") "Math" [] with
    | some math => env.callOn none math "Abs" b
    | none => .error (.unknownIdentifier "System")

theorem bindTypeRoute_abs {t : Task (Except BuildError)} (ht : t.bind = .ok b) (m₁ m₂ m₃ : Mark) :
    env.bindTypeRoute [] [.member m₁ "System" [], .member m₂ "Math" [], .method m₃ "Abs" [] [t]] =
      env.absRoute b := by
  have hsystem : (TypeName.ofPath? ["System"] []).bind env.host.resolve =
      env.host.resolveType none "System" [] := by
    simp [TypeName.ofPath?, Host.resolve, Host.resolveAll]
  have hmath : (TypeName.ofPath? ["System", "Math"] []).bind env.host.resolve =
      env.host.resolveType (some "System") "Math" [] := by
    simp [TypeName.ofPath?, Host.resolve, Host.resolveAll]
  simp only [absRoute, bindTypeRoute, List.nil_append, List.cons_append, hsystem,
    hmath, BindMonad.keep, bindLinks, bindInstance, callMethod_single ht, bind_pure]
  cases env.host.resolveType none "System" [] with
  | some ty => rfl
  | none =>
    cases env.host.resolveType (some "System") "Math" [] with
    | some math => exact callMethod_single ht none math "Abs"
    | none => rfl

theorem absRoute_free {math : Ty} (hsystem : env.host.resolveType none "System" [] = none)
    (hmath : env.host.resolveType (some "System") "Math" [] = some math) :
    env.absRoute b = env.callOn none math "Abs" b := by
  unfold absRoute
  rw [hsystem, hmath]

/-- The route is bound to a call, if it is bound at all. -/
theorem absRoute_ok (h : env.absRoute b = .ok root) :
    ∃ result target method args, root = .call result target method args ∧
      (target = none → env.host.resolveType none "System" [] = none) := by
  unfold absRoute at h
  split at h
  · obtain ⟨target, -, h⟩ := Except.bind_ok h
    obtain ⟨call, hcall, h⟩ := Except.bind_ok h
    obtain ⟨rfl, -⟩ := bounded_ok h
    obtain ⟨method, params, args, -, -, -, rfl⟩ := callOn_eq_ok.mp hcall
    exact ⟨_, _, _, _, rfl, nofun⟩
  · rename_i hsystem
    split at h
    · obtain ⟨method, params, args, -, -, -, rfl⟩ := callOn_eq_ok.mp h
      exact ⟨_, _, _, _, rfl, fun _ => hsystem⟩
    · cases h

end BindEnv

namespace Node

variable {env : BindEnv}

/-- A block of one item is bound as the item. -/
theorem meaning_single {n : Node} (hn : n.operator? = none) (mark : Mark) :
    (Node.block mark [n]).meaning env = n.meaning env >>= fun b => env.bounded (env.finish b) := by
  have hsplit : splitSign [n] = (false, [n]) := by simp [splitSign, hn]
  have hblock :
      (Node.block mark [n]).meaning env = env.foldItems ([n].map (task env)) >>= env.bounded := by
    rw [← tasks_eq_map]
    simp only [meaning, task, kept, BindMonad.keep]
  rw [hblock, foldItems_map, hsplit]
  simp only [hn, negateIf, Except.ofExcept_eq, List.map_nil, BindEnv.foldRest,
    bind_assoc, pure_bind]
  rfl

/-- What bars are arranged to is bound as the route. -/
theorem meaning_absNode {k offset : Nat} {items : List Node} {b : Bound}
    (h : (Node.block ⟨k, offset⟩ items).meaning env = .ok b) :
    (absNode k offset items).meaning env = env.absRoute b >>= env.bounded := by
  rw [← BindEnv.bindTypeRoute_abs (t := (Node.block ⟨k, offset⟩ items).task env) h ⟨k + 1, offset⟩
    ⟨k + 2, offset⟩ ⟨k + 3, offset⟩]
  simp only [absNode, meaning, task, kept, BindMonad.keep, taskSegments, tasks, BindEnv.bindRoute]

/-- A block of bars alone is bound as the route, unless a limit is exceeded. -/
theorem meaning_bars {k offset : Nat} {items : List Node} {b : Bound}
    (h : (Node.block ⟨k, offset⟩ items).meaning env = .ok b) (mark : Mark) :
    UpToLimits ((Node.block mark [absNode k offset items]).meaning env) (env.absRoute b) := by
  rw [meaning_single rfl, meaning_absNode h]
  rcases hroute : env.absRoute b with e | root
  · exact .refl _
  · obtain ⟨result, target, method, args, rfl, -⟩ := BindEnv.absRoute_ok hroute
    have hfinish :
        env.finish (.call result target method args) = .call result target method args := by
      unfold BindEnv.finish
      split <;> rfl
    show UpToLimits (env.bounded (.call result target method args) >>= fun b =>
      env.bounded (env.finish b)) _
    rcases UpToLimits.bounded env (.call result target method args)
      with ⟨limit, n, hlimit⟩ | hbounded
    · exact .inl ⟨limit, n, by rw [hlimit]; rfl⟩
    · rw [hbounded]
      show UpToLimits (env.bounded (env.finish _)) _
      rw [hfinish]
      exact .bounded env _

end Node

/-! ## Texts between bars -/

namespace Binder

variable {b : Binder} {context : Context} {source : String}

/-- A text that is bound is prepared between bars as one call on what it is bound to, unless a limit
is exceeded. -/
theorem prepare_bars {compiled : Compiled} (h : b.compile context source = .ok compiled) :
    (∃ limit n, b.prepare context ("|" ++ source ++ "|") = .error (.limitExceeded limit n)) ∨
      ∃ p mark k offset items, b.prepare context ("|" ++ source ++ "|") = .ok p ∧
        p.root = .block mark [absNode k offset items] ∧
        (Node.block ⟨k, offset⟩ items).meaning (b.env context) = .ok compiled.root := by
  obtain ⟨p, hp, -, hmeaning, -, -⟩ := firstBinding_ok h
  obtain ⟨-, root, nodes, hread, harrange, -⟩ := prepare_ok hp
  have hshape : p.root.WellShaped := by
    have hprepare := @prepare_decides b context source root nodes hread
    rw [hp] at hprepare
    have hbind := (bind_decides hprepare.2 b context).2
    rw [bind_eq_meaning hp, hmeaning] at hbind
    exact hbind
  obtain ⟨m, items, rfl⟩ := Node.ofSource_block hread
  obtain ⟨m₀, m₁, m₂, items', n', hitems, hread'⟩ := Node.ofSource_bars hread
  have hbars := Node.arrange_bars harrange hshape hitems m₀ m₁ m₂ n'
  rcases hp' : b.prepare context ("|" ++ source ++ "|") with e | p'
  · refine .inl ?_
    rcases prepare_error hread' hp' with rfl | harrange'
    · exact ⟨_, _, rfl⟩
    · rw [harrange'] at hbars
      obtain ⟨_, _, _, _, _, hok⟩ | htooDeep := hbars
      · cases hok
      · cases htooDeep
        exact ⟨_, _, rfl⟩
  · obtain ⟨-, root', nodes', hread'', harrange', -⟩ := prepare_ok hp'
    cases hread'.symm.trans hread''
    rw [harrange'] at hbars
    obtain ⟨k, offset, inner, n'', hagrees, hroot⟩ | htooDeep := hbars
    · exact .inr ⟨p', m₀, k, offset, inner, rfl, congrArg Prod.fst (Except.ok.inj hroot),
        hagrees.meaning_ok hmeaning⟩
    · cases htooDeep

/-- **A text between bars** is bound as the route `System.Math.Abs` on what the text is bound to,
unless a limit is exceeded. -/
theorem compile_bars {compiled : Compiled} (h : b.compile context source = .ok compiled) :
    UpToLimits (b.compile context ("|" ++ source ++ "|"))
      (((b.env context).absRoute compiled.root).map fun root => { compiled with root }) := by
  obtain ⟨-, -, -, -, hparameters, hbase⟩ := firstBinding_ok h
  rcases prepare_bars h with ⟨limit, n, hprepare⟩ |
    ⟨p, mark, k, offset, items, hprepare, hroot, hmeaning⟩
  · exact .inl ⟨limit, n, by rw [compile, hprepare]; rfl⟩
  · have hcompile : b.compile context ("|" ++ source ++ "|") = (b.bind context p).1 := by
      rw [compile, hprepare]
      rfl
    rw [hcompile, bind_eq_meaning hprepare, hroot]
    rcases Node.meaning_bars hmeaning mark with ⟨limit, n, hlimit⟩ | hbound
    · exact .inl ⟨limit, n, by rw [hlimit]; rfl⟩
    · rw [hbound, ← hparameters, ← hbase]
      exact .refl _

end Binder

/-! ## What the route finds -/

mutual

theorem Ty.substitute_nil : (t : Ty) → Ty.substitute [] t = t
  | .generic _ => rfl
  | .array element rank => by rw [substitute, substitute_nil element]
  | .named space name args => by rw [substitute, substituteAll_nil args]
  | .void | .object | .bool | .string | .numeric _ => rfl

theorem Ty.substituteAll_nil : (ts : List Ty) → Ty.substituteAll [] ts = ts
  | [] => rfl
  | t :: ts => by rw [substituteAll, substitute_nil t, substituteAll_nil ts]

end

namespace Registry

variable {r : Registry}

/-- An overload of `System.Math.Abs` for one argument, without type parameters. -/
def AbsOverload (r : Registry) (method : Method) (param : Ty) : Prop :=
  ∃ entry, r.classes.get? (.of mathType) = some entry ∧ ⟨method, 0⟩ ∈ entry.methods ∧
    method.name = "Abs" ∧ method.params = [param]

theorem exists_absOverload {param : Ty}
    (h : (r.classes.get? (.of mathType)).any (fun entry => entry.methods.any fun e =>
      e.method.name = "Abs" ∧ e.method.params = [param] ∧ e.generics = 0) = true) :
    ∃ method, r.AbsOverload method param := by
  obtain ⟨entry, hentry, h⟩ := (Option.any_eq_true _ _).mp h
  obtain ⟨⟨method, generics⟩, he, h⟩ := List.any_eq_true.mp h
  obtain ⟨hname, hparams, rfl⟩ := of_decide_eq_true h
  exact ⟨method, entry, hentry, he, hname, hparams⟩

theorem AbsOverload.resolveType {method : Method} {param : Ty} (h : r.AbsOverload method param) :
    r.resolveType (some "System") "Math" [] = some mathType := by
  obtain ⟨entry, hentry, -⟩ := h
  have hbuiltin : builtinType (some "System") "Math" [] = none := by decide
  have hcontains : r.classes.contains (.named (some "System") "Math" 0) = true := by
    rw [Table.contains]
    exact Option.isSome_iff_exists.mpr ⟨entry, hentry⟩
  unfold Registry.resolveType
  rw [hbuiltin]
  exact if_pos hcontains

theorem totalCost?_single (r : Registry) (ty param : Ty) :
    (r.totalCost? [ty] [param]).isSome = (r.implicitConversion ty param).isSome := by
  rw [← cost?_isSome, totalCost?]
  cases r.cost? ty param <;> rfl

/-- For a type that converts to the parameter of an overload, one is found. -/
theorem AbsOverload.findMethod {method : Method} {param ty : Ty} (h : r.AbsOverload method param)
    (hty : (r.implicitConversion ty param).isSome) :
    ∃ best, r.findMethod mathType "Abs" [] [ty] = some best := by
  obtain ⟨entry, hentry, hmethod, hname, hparams⟩ := h
  rw [← Option.isSome_iff_exists, ← hname]
  refine findMethod_isSome hentry hmethod rfl (by rw [hparams]; rfl) ?_
  show (r.totalCost? [ty] (method.params.map (Ty.substitute []))).isSome
  rw [hparams, List.map_singleton, Ty.substitute_nil, totalCost?_single]
  exact hty

/-- The overload that is found for a type: it is called `Abs`, belongs to the class `System.Math`,
and has one parameter, to which the type converts. -/
theorem findMethod_abs {ty : Ty} {method : Method} {params : List Ty}
    (h : r.findMethod mathType "Abs" [] [ty] = some (method, params)) :
    method.name = "Abs" ∧ method.owner = mathType ∧ r.OffersMethod mathType method ∧
      ∃ param, params = [param] ∧ method.params = [param] ∧
        (r.implicitConversion ty param).isSome := by
  obtain ⟨entry, e, -, -, ⟨hname, -, hlength⟩, hcost, hparams, hmethod⟩ := findMethod_applies h
  obtain ⟨hoffers, howner, hsame⟩ := findMethod_offers h
  obtain ⟨param, rfl⟩ : ∃ param, params = [param] := by
    rw [← List.length_eq_one_iff, hparams, List.length_map, hlength]
    rfl
  rw [totalCost?_single] at hcost
  exact ⟨by rw [hmethod]; exact hname, howner, hoffers, param, rfl, hsame, hcost⟩

end Registry

namespace Bound

variable {r : Registry} {env : BindEnv} {b : Bound} {ty : Ty}

/-- The tree `b` converted to a type, if it is of another. -/
def ConvertsTo (r : Registry) (b : Bound) (ty : Ty) (converted : Bound) : Prop :=
  b.ty = ty ∧ converted = b ∨
    b.ty ≠ ty ∧ ∃ c, r.implicitConversion b.ty ty = some c ∧ converted = .convert ty c b

/-- A static call of `Abs`, of the class `System.Math`, on `b` converted to the parameter. -/
def IsAbsOf (r : Registry) (root b : Bound) : Prop :=
  ∃ method param converted, root = .call method.result none method [converted] ∧
    method.name = "Abs" ∧ method.owner = mathType ∧ method.isStatic = true ∧
    r.OffersMethod mathType method ∧ method.params = [param] ∧ b.ConvertsTo r param converted

/-- What converts to a type is converted to it. -/
theorem coerceOne?_convertsTo (henv : env.host = r.host)
    (h : (r.implicitConversion b.ty ty).isSome) :
    ∃ converted, env.coerceOne? b ty = some converted ∧ b.ConvertsTo r ty converted := by
  obtain ⟨c, hc⟩ := Option.isSome_iff_exists.mp h
  have hone : env.coerceOne? b ty =
      if b.ty = ty then some b else (r.implicitConversion b.ty ty).map fun c =>
      .convert ty c b := by
    rw [BindEnv.coerceOne?, henv]
    rfl
  rw [hone]
  split
  · rename_i heq
    exact ⟨b, rfl, .inl ⟨heq, rfl⟩⟩
  · rename_i hne
    rw [hc]
    exact ⟨_, rfl, .inr ⟨hne, c, hc, rfl⟩⟩

/-- What converts to the parameter is converted to it. -/
theorem coerce?_single (henv : env.host = r.host) (h : (r.implicitConversion b.ty ty).isSome) :
    ∃ converted, env.coerce? [b] [ty] = some [converted] ∧ b.ConvertsTo r ty converted := by
  obtain ⟨converted, hone, hconverted⟩ := coerceOne?_convertsTo henv h
  refine ⟨converted, ?_, hconverted⟩
  rw [BindEnv.coerce?_cons, hone]
  rfl

end Bound

/-- The route is a call of `System.Math.Abs` exactly if no class is called `System`, and the
overload that ranks best is static. -/
theorem BindEnv.absRoute_isAbsOf_iff {r : Registry} {env : BindEnv} {b : Bound} {overload : Method}
    {param : Ty} (henv : env.host = r.host) (hoverload : r.AbsOverload overload param)
    (hty : (r.implicitConversion b.ty param).isSome) :
    (∃ root, env.absRoute b = .ok root ∧ root.IsAbsOf r b) ↔
      r.resolveType none "System" [] = none ∧
        ∀ method params, r.findMethod mathType "Abs" [] [b.ty] = some (method, params) →
          method.isStatic = true := by
  have hfree (hsystem : r.resolveType none "System" [] = none) :
      env.absRoute b = env.callOn none mathType "Abs" b :=
    absRoute_free (henv ▸ hsystem) (henv ▸ hoverload.resolveType)
  have hfound : env.host.findMethod = r.findMethod := by rw [henv]; rfl
  constructor
  · rintro ⟨root, hroute, method, param, converted, rfl, -⟩
    obtain ⟨result, target, method, args, hcall, hsystem⟩ := absRoute_ok hroute
    cases hcall
    have hsystem : r.resolveType none "System" [] = none := by
      rw [henv] at hsystem
      exact hsystem rfl
    rw [hfree hsystem, callOn_eq_ok, hfound] at hroute
    obtain ⟨best, params, args, hbest, hstatic, -, -⟩ := hroute
    refine ⟨hsystem, fun method params hmethod => ?_⟩
    cases hmethod.symm.trans hbest
    exact hstatic
  · rintro ⟨hsystem, hstatic⟩
    obtain ⟨⟨method, params⟩, hmethod⟩ := hoverload.findMethod hty
    have hstatic := hstatic method params hmethod
    obtain ⟨hname, howner, hoffers, param, rfl, hparams, hty⟩ := Registry.findMethod_abs hmethod
    obtain ⟨converted, hcoerce, hconverted⟩ := Bound.coerce?_single henv hty
    refine ⟨.call method.result none method [converted], ?_, method, param, converted,
      rfl, hname, howner, hstatic, hoffers, hparams, hconverted⟩
    rw [hfree hsystem, callOn_eq_ok, hfound]
    exact ⟨method, [param], [converted], hmethod, hstatic, hcoerce, rfl⟩

namespace Binder

/-- **When bars are an absolute value.** Take a text that is bound, to a tree whose type converts to
the parameter of an overload of `System.Math.Abs`. Unless a limit is exceeded, the text between bars
is bound to a static call of `System.Math.Abs` on that tree exactly if no class is called `System`,
and the overload that ranks best is static. -/
theorem bars_call_abs_iff {r : Registry} {limits : Limits} {simplify : Bool} {context : Context}
    {source : String} {compiled : Compiled}
    (h : (Binder.mk r.host limits simplify).compile context source = .ok compiled)
    (hconverts : ∃ method param, r.AbsOverload method param ∧
      (r.implicitConversion compiled.root.ty param).isSome)
    (hlimits : ∀ limit n,
      (Binder.mk r.host limits simplify).compile context ("|" ++ source ++ "|") ≠
      .error (.limitExceeded limit n)) :
    (∃ root, (Binder.mk r.host limits simplify).compile context ("|" ++ source ++ "|") =
        .ok { compiled with root } ∧ root.IsAbsOf r compiled.root) ↔
      r.resolveType none "System" [] = none ∧
        ∀ method params, r.findMethod mathType "Abs" [] [compiled.root.ty] = some (method, params) →
          method.isStatic = true := by
  obtain ⟨overload, param, hoverload, hty⟩ := hconverts
  have henv : ((Binder.mk r.host limits simplify).env context).host = r.host := rfl
  rw [← BindEnv.absRoute_isAbsOf_iff henv hoverload hty]
  obtain ⟨limit, n, hlimit⟩ | hbars := compile_bars h
  · exact (hlimits limit n hlimit).elim
  rw [hbars]
  constructor
  · rintro ⟨root, hroot, habs⟩
    obtain ⟨root, hroute, heq⟩ := Except.map_ok hroot
    cases heq
    exact ⟨root, hroute, habs⟩
  · rintro ⟨root, hroute, habs⟩
    rw [hroute]
    exact ⟨root, rfl, habs⟩

/-- A parameter called `System` does not stand in the way; it is converted from `byte` to
`short`. -/
theorem bars_call_abs_iff_parameter :
    let r := Registry.standard []
    let b : Binder := ⟨r.host, .standard, false⟩
    let context : Context := ⟨none, [⟨"System", .int .u8⟩]⟩
    ∃ compiled root, b.compile context "System" = .ok compiled ∧ compiled.root.ty = .int .u8 ∧
      (∃ method, r.AbsOverload method (.int .i16)) ∧
      b.compile context "|System|" = .ok { compiled with root } ∧ root.IsAbsOf r compiled.root ∧
      root.ty = .int .i16 := by
  intro r b context
  have hcompiled :
      (b.compile context "System").toOption.any (fun c => c.root.ty = .int .u8) = true := by
    decide +kernel
  have hbars :
      (b.compile context "|System|").toOption.any (fun c => c.root.ty = .int .i16) = true := by
    decide +kernel
  have hstatic :
      (r.findMethod mathType "Abs" [] [.int .u8]).all (fun found => found.1.isStatic) = true := by
    decide +kernel
  obtain ⟨compiled, hcompiled, hty⟩ := Except.exists_ok hcompiled
  obtain ⟨c, hc, hroot⟩ := Except.exists_ok hbars
  obtain ⟨method, hmethod⟩ : ∃ method, r.AbsOverload method (.int .i16) :=
    Registry.exists_absOverload (by decide +kernel)
  obtain ⟨root, hbars, habs⟩ := (bars_call_abs_iff hcompiled
    ⟨method, .int .i16, hmethod, by rw [hty]; decide +kernel⟩
    (fun limit n hlimit => by cases hc.symm.trans hlimit)).mpr
      ⟨by decide +kernel, fun method params hfound => by
        rw [hty] at hfound
        rw [hfound] at hstatic
        exact hstatic⟩
  cases hc.symm.trans hbars
  exact ⟨compiled, root, hcompiled, hty, ⟨method, hmethod⟩, hbars, habs, hroot⟩

/-- A class called `System` stands in the way: `Math` is looked for among its static members. -/
theorem bars_unknown_in_class_system :
    let r := (Registry.standard []).declareAll [.extend (.named none "System" []) []]
    let b : Binder := ⟨r.host, .standard, false⟩
    let context : Context := ⟨none, [⟨"x", .i32⟩]⟩
    (∃ compiled, b.compile context "x" = .ok compiled ∧ compiled.root.ty = .i32) ∧
      (∃ method, r.AbsOverload method .i32) ∧
      ∃ e, b.compile context "|x|" = .error e ∧ e.message = "unknown identifier: System.Math" := by
  intro r b context
  have hcompiled : (b.compile context "x").toOption.any (fun c => c.root.ty = .i32) = true := by
    decide +kernel
  have herror : (Except.error? (b.compile context "|x|")).map BuildError.message =
      some "unknown identifier: System.Math" := by
    decide +kernel
  obtain ⟨e, he, hmessage⟩ := Option.map_eq_some_iff.mp herror
  exact ⟨Except.exists_ok hcompiled, Registry.exists_absOverload (by decide +kernel), e,
    Except.error?_eq_some he, hmessage⟩

end Binder

end Formula
