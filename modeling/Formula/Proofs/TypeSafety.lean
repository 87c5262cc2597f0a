import Formula.Proofs.Invariant
import Formula.Proofs.Prepared
import Formula.Proofs.SimplifiedBinding
import Formula.Proofs.Soundness

/-!
# Type safety

Binding gives typed trees, whatever has been declared, if the declared functions are well behaved.
So an evaluation gives a value of the type of the expression, and complains about values only where
a declared function does, or where a float without a value becomes a `decimal`:
`Binder.eval_sound`.
-/

namespace Formula

/-- The functions of a registry are well behaved. They fail only if they were declared by `ds`. -/
structure Registry.Sound (I : Ty → Value → Prop) (ds : List Declaration) (r : Registry) : Prop where
  entry : ∀ key entry, r.classes.get? key = some entry →
    entry.MadeOf fun owner item =>
      item.WellBehaved I (fun _ => Declared ds owner item) owner ∧ TypeKey.of owner = key
  conversion : ∀ source target run, r.conversions.get? (source, target) = some run →
    ∀ v, Inhabits I source v →
      Gives I (fun _ => Declaration.conversion source target run ∈ ds) target (run v)

variable {I : Ty → Value → Prop} {ds : List Declaration} {context : Context} {r : Registry}

namespace Registry

/-- A registry made of declarations that never fail and of declarations `ds`. -/
theorem MadeOf.sound {own : List Declaration} (h : r.MadeOf (own ++ ds))
    (hown : ∀ d ∈ own, d.WellBehaved I fun _ => False)
    (hds : ∀ d ∈ ds, d.WellBehaved I fun _ => True) : r.Sound I ds where
  entry key entry hentry := by
    refine (h.entry key entry hentry).mono ?_
    rintro owner item ⟨⟨items, hitems, hitem⟩, hkey⟩
    refine ⟨?_, hkey⟩
    rcases List.mem_append.mp hitems with hitems | hitems
    · exact (hown _ hitems item hitem).mono fun _ => False.elim
    · exact (hds _ hitems item hitem).mono fun _ _ => ⟨items, hitems, hitem⟩
  conversion source target run hrun v hv := by
    rcases List.mem_append.mp (h.conversion source target run hrun) with hd | hd
    · exact Gives.mono (fun _ => False.elim) (hown _ hd v hv)
    · exact Gives.mono (fun _ _ => hd) (hds _ hd v hv)

/-- What a host starts with: nothing, or the standard registry. -/
def IsInitial (r : Registry) : Prop := r = empty ∨ ∃ linked, r = standard linked

/-- A host starts with what is built in and with functions on floats that were linked. -/
theorem IsInitial.madeOf (h : r.IsInitial) : ∃ own, (∀ ds, (r.declareAll ds).MadeOf (own ++ ds)) ∧
    ∀ d ∈ own, d ∈ builtins ∨ ∃ f : FloatFunction, d = f.declaration := by
  rcases h with rfl | ⟨linked, rfl⟩
  · exact ⟨[], fun ds => declareAll_madeOf empty_madeOf ds, List.forall_mem_nil _⟩
  · have hstandard := declareAll_madeOf (declareAll_madeOf empty_madeOf builtins)
      (linked.map FloatFunction.declaration)
    refine ⟨_, fun ds => declareAll_madeOf hstandard ds, fun d hd => ?_⟩
    refine (List.mem_append.mp hd).imp_right fun hd => ?_
    obtain ⟨f, -, rfl⟩ := List.mem_map.mp hd
    exact ⟨f, rfl⟩

theorem IsInitial.sound (h : r.IsInitial) (hds : ∀ d ∈ ds, d.WellBehaved I fun _ => True) :
    (r.declareAll ds).Sound I ds := by
  obtain ⟨own, hmade, hown⟩ := h.madeOf
  refine (hmade ds).sound (fun d hd => ?_) hds
  rcases hown d hd with hd | ⟨f, rfl⟩
  · exact builtins_wellBehaved d hd
  · exact f.declaration_wellBehaved

/-! ## What the look-ups find is typed -/

/-- A value that a member or a method of type `ty` is read on: none if it is static, and else a
value of that type. -/
def Receives (I : Ty → Value → Prop) (ty : Ty) (isStatic : Bool) : Option Value → Prop
  | none => isStatic = true
  | some v => isStatic = false ∧ v ≠ .null ∧ Inhabits I ty v

theorem Sound.member (h : r.Sound I ds) {ty : Ty} {name : String} {f : Member}
    (hf : r.findMember ty name = some f) (receiver : Option Value)
    (hreceiver : Receives I ty f.isStatic receiver) :
    (Action.get f.ty f receiver).Typed I ds f.ty := by
  rcases findMember_cases hf with ⟨element, rank, rfl, rfl⟩ | ⟨entry, m, hentry, hm, rfl⟩
  · rcases receiver with _ | v
    · cases hreceiver
    · exact fun frame => arrayLength_gives hreceiver.2.1 hreceiver.2.2
  · obtain ⟨owner, item, ⟨hitem, hkey⟩, hitem'⟩ := (h.entry _ entry hentry).member name m hm
    have hforeign : Declared ds owner item →
        (Action.get (m.ty.substitute ty.args) { m with ty := m.ty.substitute ty.args }
          receiver).Foreign ds := fun hd => ⟨owner, item, m, hd, hitem', rfl⟩
    cases item <;> cases hitem' <;> rcases receiver with _ | v
    · cases hreceiver
    · obtain ⟨-, hnull, hv⟩ := hreceiver
      exact fun frame => (hitem ty hkey.symm v hnull hv).mono fun _ hd => .inl (hforeign hd)
    · exact fun frame => (hitem ty hkey.symm).mono fun _ hd => .inl (hforeign hd)
    · cases hreceiver.1

theorem Sound.call (h : r.Sound I ds) {ty : Ty} {name : String} {generics types params : List Ty}
    {f : Method} (hf : r.findMethod ty name generics types = some (f, params))
    (receiver : Option Value) (hreceiver : Receives I ty f.isStatic receiver) {vs : List Value}
    (hvs : List.Forall₂ (Inhabits I) params vs) :
    (Action.invoke f.result f receiver vs).Typed I ds f.result := by
  obtain ⟨entry, e, hentry, he, hgenerics, rfl, rfl⟩ := findMethod_cases hf
  obtain ⟨owner, item, ⟨hitem, hkey⟩, hitem'⟩ := (h.entry _ entry hentry).method e he
  cases item <;> cases hitem' <;> rcases receiver with _ | v
  · cases hreceiver
  · obtain ⟨-, hnull, hv⟩ := hreceiver
    exact fun frame => (hitem ty hkey.symm generics hgenerics.symm v hnull hv vs hvs).mono
      fun _ hd => .inl ⟨owner, _, _, hd, rfl, rfl⟩
  · exact fun frame => (hitem ty hkey.symm generics hgenerics.symm vs hvs).mono
      fun _ hd => .inl ⟨owner, _, _, hd, rfl, rfl⟩
  · cases hreceiver.1

theorem Sound.index (h : r.Sound I ds) {ty : Ty} {types params : List Ty} {f : Indexer}
    (hf : r.findIndexer ty types = some (f, params)) {v : Value} (hnull : v ≠ .null)
    (hv : Inhabits I ty v) {vs : List Value} (hvs : List.Forall₂ (Inhabits I) params vs) :
    (Action.index f.result f v vs).Typed I ds f.result := by
  rcases findIndexer_cases hf with ⟨element, rank, rfl, rfl, rfl⟩ | ⟨entry, i, hentry, hi, rfl, rfl⟩
  · exact fun frame => arrayIndexer_gives (fun e he => .inr (.inl he)) hnull hv hvs
  · obtain ⟨owner, item, ⟨hitem, hkey⟩, hitem'⟩ := (h.entry _ entry hentry).indexer i hi
    have hforeign : Declared ds owner item →
        (Action.index (i.result.substitute ty.args)
          ⟨ty, i.params.map (Ty.substitute ty.args), i.result.substitute ty.args, i.get⟩ v
          vs).Foreign ds := fun hd => ⟨owner, item, i, hd, hitem', rfl⟩
    cases item <;> cases hitem'
    exact fun frame => (hitem ty hkey.symm v hnull hv vs hvs).mono fun _ hd => .inl (hforeign hd)

theorem Sound.implicit (h : r.Sound I ds) {source target : Ty} {c : Conversion}
    (hne : source ≠ target) (hc : r.implicitConversion source target = some c) {v : Value}
    (hv : Inhabits I source v) : (Action.convert target c v).Typed I ds target := by
  rcases implicitConversion_cases hc hne with ⟨rfl, rfl⟩ | ⟨a, b, rfl, rfl, rfl⟩ | ⟨run, hrun, rfl⟩
  · exact fun frame => trivial
  · exact Bound.numeric_typed b hv
  · intro frame
    exact (h.conversion source target run hrun v hv).mono fun _ hd => .inl ⟨source, target, hd⟩

/-! ## Binding -/

theorem literalType_inhabits (v : Value) : Inhabits I (literalType v) v := by
  cases v with
  | bool b => exact ⟨b, rfl⟩
  | str s => exact .inr ⟨s, rfl⟩
  | int | f32 | f64 | decimal => exact rfl
  | null | array | object => exact trivial

theorem typedAll_of_forall {args : List Bound}
    (h : ∀ b ∈ args, b.Typed I ds context ∧ b.Kinded) : Bound.TypedAll I ds context args := by
  induction args with
  | nil => trivial
  | cons b bs ih =>
    obtain ⟨hb, hbs⟩ := List.forall_mem_cons.mp h
    exact ⟨hb.1, ih hbs⟩

/-- Every step of binding makes typed trees. -/
theorem Sound.invariant (h : r.Sound I ds) (context : Context) (maxDepth : Nat) (simplify : Bool) :
    (BindEnv.mk r.host context maxDepth simplify).Invariant fun b =>
      b.Typed I ds context ∧ b.Kinded where
  finish := by
    rintro b ⟨hb, hk⟩
    cases simplify with
    | false => exact ⟨hb, hk⟩
    | true => exact ⟨hb.simplify hk, (Bound.simplify_refines hk).2⟩
  const v _ := ⟨literalType_inhabits v, literalType_kinded v⟩
  param hp := ⟨⟨_, Context.parameter?_eq_some hp, rfl⟩, trivial⟩
  this hb := ⟨hb, trivial⟩
  staticMember hf hs := ⟨h.member hf none hs, trivial⟩
  member hb hf hs := ⟨⟨hb.1, fun v hnull hv => h.member hf (some v) ⟨hs, hnull, hv⟩⟩, trivial⟩
  staticCall := by
    rintro ty name generics types params f args hf hs hargs rfl
    exact ⟨⟨typedAll_of_forall hargs, fun vs hvs => h.call hf none hs hvs⟩, trivial⟩
  call := by
    rintro b name generics types params f args ⟨hb, -⟩ hf hs hargs rfl
    exact ⟨⟨hb, typedAll_of_forall hargs,
      fun v hnull hv vs hvs => h.call hf (some v) ⟨hs, hnull, hv⟩ hvs⟩, trivial⟩
  index := by
    rintro b types params f args ⟨hb, -⟩ hf hargs rfl
    exact ⟨⟨hb, typedAll_of_forall hargs, fun v hnull hv vs hvs => h.index hf hnull hv hvs⟩,
      trivial⟩
  implicit := by
    rintro b ty c ⟨hb, hk⟩ hne hc
    exact ⟨⟨hb, fun v hv => h.implicit hne hc hv⟩, implicitConversion_kinded hc hne hk⟩
  numeric := by
    rintro b source target ⟨hb, hk⟩ hty
    refine ⟨⟨hb, fun v hv => ?_⟩, hk, rfl⟩
    rw [hty] at hv
    exact Bound.numeric_typed target hv
  negate := by
    rintro b kind ⟨hb, hk⟩ hty hsigned
    refine ⟨⟨hb, fun v hv => ?_⟩, hk, kind, rfl, hty, hsigned⟩
    rw [hty] at hv
    exact Bound.negate_typed hsigned hv
  binary := by
    rintro op p q kind ⟨hp, hkp⟩ ⟨hq, hkq⟩ hl hr hpow
    refine ⟨⟨hp, hq, fun a b ha hb => ?_⟩, hkp, hkq, kind, rfl, hl, hr, hpow⟩
    rw [hl] at ha
    rw [hr] at hb
    exact Bound.binary_typed hpow ha hb

/-- Binding gives typed trees. -/
theorem Sound.meaning_typed (h : r.Sound I ds) {n : Node} (hn : n.slots.Nodup) {maxDepth : Nat}
    {simplify : Bool} {b : Bound} (hb : n.meaning ⟨r.host, context, maxDepth, simplify⟩ = .ok b) :
    b.Typed I ds context :=
  ((h.invariant context maxDepth simplify).meaning hn hb).1

end Registry

namespace Binder

/-- **Type safety**: let the declared functions give values of their types, and let the receiver and
the parameters be values of the types of the context. Then an evaluation gives a value of the type
of the expression, or it is given too few values, or it fails with an error that is expected of the
action that failed. -/
theorem eval_sound {base : Registry} (hbase : base.IsInitial)
    (hds : ∀ d ∈ ds, d.WellBehaved I fun _ => True) {limits : Limits} {simplify : Bool}
    {context context' : Context} {source : String} {c : Compiled}
    (hc : firstBinding ⟨(base.declareAll ds).host, limits, simplify⟩ context
      context' source = .ok c)
    {receiver : Option Value} {values : List Value}
    (hreceiver : ∀ ty v, context'.base = some ty → receiver = some v → Inhabits I ty v)
    (hvalues : ∀ (i : Nat) p v, context'.parameters[i]? = some p → values[i]? = some v →
      Inhabits I p.ty v) :
    (∀ v, c.eval receiver values = .ok v → Inhabits I c.root.ty v) ∧
      ∀ e, c.eval receiver values = .error e →
        values.length < context'.parameters.length ∧
            e = .tooFewValues context'.parameters.length values.length ∨
          ∃ a ∈ c.root.actions ⟨receiver, values⟩,
            a.run ⟨receiver, values⟩ = .error e ∧ a.MayReport ds e := by
  obtain ⟨p, -, hnodup, hmeaning, hparameters, -⟩ := firstBinding_ok hc
  have htyped := (hbase.sound hds).meaning_typed hnodup hmeaning
  unfold Compiled.eval
  rw [hparameters]
  by_cases hfew : values.length < context'.parameters.length
  · rw [if_pos hfew]
    refine ⟨fun v hv => (by cases hv), fun e he => .inl ⟨hfew, ?_⟩⟩
    cases he
    rfl
  · rw [if_neg hfew]
    have hconforms : Frame.Conforms I context' ⟨receiver, values⟩ :=
      ⟨hreceiver, hvalues, Nat.le_of_not_lt hfew⟩
    obtain ⟨hvalue, herrors⟩ := htyped.evaluate_sound hconforms
    refine ⟨fun v hv => hvalue v ?_, fun e he => .inr ?_⟩
    · rw [Bound.evaluate_outcome]
      exact hv
    · obtain ⟨a, ha, hrun⟩ := (Bound.eval_error_iff _ _ e).mp he
      exact ⟨a, ha, hrun, herrors a ha e hrun⟩

/-- A declaration of one constant. -/
def answerDeclaration : Declaration :=
  .extend (.named none "Deep" []) [.staticProperty "Answer" .i32 (.ok (.ofInt .i32 42))]

/-- A cast, an absolute value and a declared constant, bound with simplification. -/
theorem eval_sound_answer : ∃ c v,
    firstBinding ⟨((Registry.standard []).declareAll [answerDeclaration]).host, .standard, true⟩
        ⟨none, [⟨"x", .i32⟩]⟩ ⟨none, [⟨"x", .i32⟩]⟩ "(decimal)x + |x| * Deep.Answer" = .ok c ∧
      c.eval none [.ofInt .i32 (-7)] = .ok v ∧ Inhabits (fun _ _ => False) c.root.ty v := by
  have hok : ((firstBinding
      ⟨((Registry.standard []).declareAll [answerDeclaration]).host, .standard, true⟩
      ⟨none, [⟨"x", .i32⟩]⟩ ⟨none, [⟨"x", .i32⟩]⟩
      "(decimal)x + |x| * Deep.Answer").toOption.bind fun c =>
        (c.eval none [.ofInt .i32 (-7)]).toOption).isSome = true := by
    decide +kernel
  obtain ⟨v, hv⟩ := Option.isSome_iff_exists.mp hok
  obtain ⟨c, hc, hv⟩ := Option.bind_eq_some_iff.mp hv
  have hc := Except.toOption_eq_some hc
  have hv := Except.toOption_eq_some hv
  refine ⟨c, v, hc, hv, (eval_sound (.inr ⟨[], rfl⟩) (fun d hd => ?_) hc (fun ty v h => ?_)
    fun i p v hp hi => ?_).1 v hv⟩
  · cases List.mem_singleton.mp hd
    intro item hitem
    cases List.mem_singleton.mp hitem
    exact fun _ _ => rfl
  · cases h
  · cases i with
    | zero =>
      cases hp
      cases hi
      exact rfl
    | succ i => cases hp

end Binder

end Formula
