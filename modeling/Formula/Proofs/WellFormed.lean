import Formula.Proofs.BoundTree
import Formula.Proofs.Invariant
import Formula.Proofs.Prepared
import Formula.Proofs.SimplifiedBinding
import Formula.Registry.Standard

/-!
# Well-formed trees

Evaluation and the functions of the host rely on the types of a tree without looking at them.
`Bound.WellFormed` says of one node what they rely on:

* operators and negations have operands of their own numeric type, and conversions to numbers are of
  the type they convert to;
* members and calls have a target exactly if they are not static, and there is one argument for each
  parameter, of the type of the parameter;
* members, calls and indexers carry what the registry offers for the type of their target, with the
  type arguments put in, and have the type that it promises;
* parameters and the receiver are those of the context.

`Binder.nodes_wellFormed`: all nodes of a bound tree are well formed, with and without
simplification.
-/

namespace Formula

/-! ## What a registry offers -/

namespace Registry

variable (r : Registry)

/-- A member of the type `ty`: the length of an array, or a registered member with the arguments of
`ty` put into its type. -/
def OffersMember (ty : Ty) (f : Member) : Prop :=
  (∃ element rank, ty = .array element rank ∧ f = arrayLength) ∨
    ∃ entry name m, r.classes.get? (.of ty) = some entry ∧ entry.members.get? name = some m ∧
      f = { m with ty := Ty.substitute ty.args m.ty }

/-- A method of the type `ty`: a registered one with the arguments of `ty` and then its own put into
its types. -/
def OffersMethod (ty : Ty) (f : Method) : Prop :=
  ∃ entry e generics, r.classes.get? (.of ty) = some entry ∧ e ∈ entry.methods ∧
    e.generics = generics.length ∧
    f = { e.method with
      owner := ty
      params := e.method.params.map (Ty.substitute (ty.args ++ generics))
      result := Ty.substitute (ty.args ++ generics) e.method.result }

/-- An indexer of the type `ty`: that of an array, or a registered one with the arguments of `ty`
put into its types. -/
def OffersIndexer (ty : Ty) (f : Indexer) : Prop :=
  (∃ element rank, ty = .array element rank ∧ f = arrayIndexer ty element rank) ∨
    ∃ entry i, r.classes.get? (.of ty) = some entry ∧ i ∈ entry.indexers ∧
      f = { i with
        owner := ty
        params := i.params.map (Ty.substitute ty.args)
        result := Ty.substitute ty.args i.result }

variable {r}

theorem findMember_offers {ty : Ty} {name : String} {f : Member}
    (h : r.findMember ty name = some f) :
    r.OffersMember ty f := by
  rcases findMember_cases h with harray | ⟨entry, m, hentry, hm, hf⟩
  · exact .inl harray
  · exact .inr ⟨entry, name, m, hentry, hm, hf⟩

/-- A method that is found is offered, and the arguments are converted to its parameters. -/
theorem findMethod_offers {ty : Ty} {name : String} {generics args params : List Ty} {f : Method}
    (h : r.findMethod ty name generics args = some (f, params)) :
    r.OffersMethod ty f ∧ f.owner = ty ∧ f.params = params := by
  obtain ⟨entry, e, hentry, he, hgenerics, rfl, rfl⟩ := findMethod_cases h
  exact ⟨⟨entry, e, generics, hentry, he, hgenerics, rfl⟩, rfl, rfl⟩

theorem findIndexer_offers {ty : Ty} {args params : List Ty} {f : Indexer}
    (h : r.findIndexer ty args = some (f, params)) : r.OffersIndexer ty f ∧ f.params = params := by
  rcases findIndexer_cases h with ⟨element, rank, hty, rfl, rfl⟩ | ⟨entry, i, hentry, hi, rfl, rfl⟩
  · exact ⟨.inl ⟨element, rank, hty, rfl⟩, rfl⟩
  · exact ⟨.inr ⟨entry, i, hentry, hi, rfl⟩, rfl⟩

end Registry

/-! ## Nodes -/

namespace Bound

/-- What is relied on at one node. -/
def WellFormed (r : Registry) (context : Context) : Bound → Prop
  | .const .. => True
  | .param ty i => ∃ h : i < context.parameters.length, ty = context.parameters[i].ty
  | .this ty => context.base = some ty
  | .member ty target m =>
    (target.isSome ↔ m.isStatic = false) ∧ ty = m.ty ∧
      ∃ owner, (∀ b ∈ target, b.ty = owner) ∧ r.OffersMember owner m
  | .call ty target m args =>
    (target.isSome ↔ m.isStatic = false) ∧ args.map Bound.ty = m.params ∧ ty = m.result ∧
      (∀ b ∈ target, b.ty = m.owner) ∧ r.OffersMethod m.owner m
  | .index ty target i args =>
    args.map Bound.ty = i.params ∧ ty = i.result ∧ r.OffersIndexer target.ty i
  | .convert ty c _ => ∀ kind, c = .numeric kind → ty = .numeric kind
  | .negate ty operand =>
    ∃ kind, ty = .numeric kind ∧ operand.ty = .numeric kind ∧
      kind ∉ [.int .u8, .int .u16, .int .u32, .int .u64]
  | .binary ty op left right =>
    ∃ kind, ty = .numeric kind ∧ left.ty = .numeric kind ∧ right.ty = .numeric kind ∧
      (op = .pow → kind = .f64)

/-- Nodes stay well formed, as simplification keeps the types of operands. -/
theorem wellFormed_simplifyRules (r : Registry) (context : Context) :
    SimplifyRules Kinded (WellFormed r context) where
  const _ _ _ := trivial
  convert hk := ⟨hk.operand, fun h => h⟩
  negate := by
    rintro ty b ⟨hk, -⟩
    refine ⟨hk, fun ⟨kind, hty, hoperand, hsigned⟩ => ?_⟩
    exact ⟨kind, hty, (simplify_refines hk).1.ty_eq.trans hoperand, hsigned⟩
  binary := by
    rintro ty op left right ⟨hkl, hkr, -⟩
    refine ⟨⟨hkl, hkr⟩, fun ⟨kind, hty, hleft, hright, hpow⟩ => ?_⟩
    exact ⟨kind, hty, (simplify_refines hkl).1.ty_eq.trans hleft,
      (simplify_refines hkr).1.ty_eq.trans hright, hpow⟩

end Bound

/-! ## Binding -/

theorem Kind.not_unsigned {kind : Kind} (h : kind.isSigned = true) :
    kind ∉ [Kind.int .u8, .int .u16, .int .u32, .int .u64] := by
  rintro hmem
  rcases kind with k | _ | _ | _
  · cases k <;> simp_all [Kind.isSigned, IntKind.signed]
  · simp at hmem
  · simp at hmem
  · simp at hmem

namespace Registry

variable (r : Registry) (context : Context)

/-- A conversion that is found names the numeric type it converts to. -/
theorem implicitConversion_wellFormed {r : Registry} {b : Bound} {source ty : Ty} {c : Conversion}
    (h : r.implicitConversion source ty = some c) (hne : source ≠ ty) :
    (Bound.convert ty c b).WellFormed r context := by
  rintro kind rfl
  rcases implicitConversion_cases h hne with ⟨hc, -⟩ | ⟨_, _, -, rfl, hc⟩ | ⟨_, -, hc⟩
  · cases hc
  · cases hc
    rfl
  · cases hc

/-- Every step of binding makes well-formed nodes. -/
theorem wellFormed_invariant (maxDepth : Nat) (simplify : Bool) :
    (BindEnv.mk r.host context maxDepth simplify).Invariant fun b =>
      (∀ n ∈ b.nodes, n.WellFormed r context) ∧ b.Kinded where
  finish := by
    rintro b ⟨hb, hk⟩
    cases simplify with
    | false => exact ⟨hb, hk⟩
    | true =>
      exact ⟨(Bound.wellFormed_simplifyRules r context).forall_nodes hk hb,
        (Bound.simplify_refines hk).2⟩
  const v _ := ⟨List.forall_mem_singleton.mpr trivial, literalType_kinded v⟩
  param := by
    rintro name i p hp
    obtain ⟨hi, rfl⟩ := List.getElem?_eq_some_iff.mp (Context.parameter?_eq_some hp)
    exact ⟨List.forall_mem_singleton.mpr ⟨hi, rfl⟩, trivial⟩
  this hb := ⟨List.forall_mem_singleton.mpr hb, trivial⟩
  staticMember := by
    rintro ty name f hf hstatic
    refine ⟨List.forall_mem_singleton.mpr ⟨?_, rfl, ty, by simp, findMember_offers hf⟩, trivial⟩
    simp [hstatic]
  member := by
    rintro b name f ⟨hb, -⟩ hf hstatic
    refine ⟨List.forall_mem_cons.mpr ⟨⟨?_, rfl, b.ty, by simp, findMember_offers hf⟩, hb⟩, trivial⟩
    simp [hstatic]
  staticCall := by
    rintro ty name generics types params f args hf hstatic hargs hty
    obtain ⟨hoffers, rfl, hparams⟩ := findMethod_offers hf
    refine ⟨Bound.forall_nodes_staticCall.mpr ⟨⟨?_, hty.trans hparams.symm, rfl, by simp, hoffers⟩,
      fun b hb => (hargs b hb).1⟩, trivial⟩
    simp [hstatic]
  call := by
    rintro b name generics types params f args ⟨hb, -⟩ hf hstatic hargs hty
    obtain ⟨hoffers, howner, hparams⟩ := findMethod_offers hf
    rw [← howner] at hoffers
    refine ⟨Bound.forall_nodes_call.mpr ⟨⟨?_, hty.trans hparams.symm, rfl, ?_, hoffers⟩, hb,
      fun b hb => (hargs b hb).1⟩, trivial⟩
    · simp [hstatic]
    · simp [howner]
  index := by
    rintro b types params f args ⟨hb, -⟩ hf hargs hty
    obtain ⟨hoffers, hparams⟩ := findIndexer_offers hf
    exact ⟨Bound.forall_nodes_index.mpr ⟨⟨hty.trans hparams.symm, rfl, hoffers⟩, hb,
      fun b hb => (hargs b hb).1⟩, trivial⟩
  implicit := by
    rintro b ty c ⟨hb, hk⟩ hne hc
    exact ⟨Bound.forall_nodes_convert.mpr ⟨implicitConversion_wellFormed context hc hne, hb⟩,
      implicitConversion_kinded hc hne hk⟩
  numeric := by
    rintro b source target ⟨hb, hk⟩ -
    refine ⟨Bound.forall_nodes_convert.mpr ⟨?_, hb⟩, hk, rfl⟩
    rintro kind hc
    cases hc
    rfl
  negate := by
    rintro b kind ⟨hb, hk⟩ hty hsigned
    refine ⟨Bound.forall_nodes_negate.mpr ⟨⟨kind, rfl, hty, ?_⟩, hb⟩, hk, kind, rfl, hty, hsigned⟩
    exact Kind.not_unsigned hsigned
  binary := by
    rintro op left right kind ⟨hl, hkl⟩ ⟨hr, hkr⟩ hlty hrty hpow
    exact ⟨Bound.forall_nodes_binary.mpr ⟨⟨kind, rfl, hlty, hrty, hpow⟩, hl, hr⟩,
      hkl, hkr, kind, rfl, hlty, hrty, hpow⟩

end Registry

namespace Binder

/-- **Bound trees are well formed**: whatever is registered, and whatever the limits, the contexts
and the text are, all nodes of a compiled expression are, with and without simplification. -/
theorem nodes_wellFormed {r : Registry} {limits : Limits} {simplify : Bool}
    {context context' : Context} {source : String} {c : Compiled}
    (hc : firstBinding ⟨r.host, limits, simplify⟩ context context' source = .ok c) :
    ∀ n ∈ c.root.nodes, n.WellFormed r context' := by
  obtain ⟨p, -, hnodup, hmeaning, -, -⟩ := firstBinding_ok hc
  exact ((r.wellFormed_invariant context' limits.treeDepth simplify).meaning hnodup hmeaning).1

/-- A generic class with an indexer and a generic method. -/
def boxDeclaration : Declaration :=
  .extend (.named none "Box" [.generic 0]) [
    .indexer [.i32] (.named none "Box" [.generic 0]) fun v _ => .ok v,
    .method "Pick" 1 [.generic 0, .generic 1] (.generic 1) fun _ args => argument args 1]

/-- Type arguments, conversions of arguments and operands, a negated byte and a power, in fourteen
nodes. -/
theorem nodes_wellFormed_box :
    let r := (Registry.standard []).declareAll [boxDeclaration]
    let context : Context := ⟨none, [⟨"b", .named none "Box" [.i64]⟩, ⟨"x", .int .u8⟩]⟩
    ∃ c, firstBinding ⟨r.host, .standard, false⟩ context context
      "b[x].Pick<double>(-x, 2) ^ 2" = .ok c ∧
      c.root.nodes.length = 14 ∧ ∀ n ∈ c.root.nodes, n.WellFormed r context := by
  intro r context
  obtain ⟨c, hc, hlength⟩ : ∃ c,
      firstBinding ⟨r.host, .standard, false⟩ context context
      "b[x].Pick<double>(-x, 2) ^ 2" = .ok c ∧
        c.root.nodes.length = 14 :=
    Except.exists_ok (by decide +kernel)
  exact ⟨c, hc, hlength, nodes_wellFormed hc⟩

end Binder

end Formula
