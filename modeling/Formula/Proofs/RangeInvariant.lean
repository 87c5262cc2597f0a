import Formula.Proofs.BoundTree
import Formula.Proofs.Passes
import Formula.Proofs.TypeSafety
import Formula.Proofs.ValueRange

/-!
# Decimals stay in range

If the decimals of the inputs are in range, and those that declared functions give, then so are all
decimals of an evaluation: `Binder.decimals_in_range`. It does not matter how often the text was
bound before, against which contexts and declarations, and whether that failed.

* `Bound.KeepsRange`: what a node does keeps the range. Binding makes such nodes only, with and
  without simplification (`Registry.KeepsRange.invariant`), and keeps such trees only in its slots
  (`Prepared.KeepsRange`).
* `Bound.evaluate_keeps_range`: evaluating them keeps the range.
* `Action.delivers`: what an action computes exactly is rounded into range or refused.
-/

namespace Formula

open Value

variable {P : Decimal → Prop} {ds : List Declaration} {frame : Frame}

/-! ## Actions -/

namespace Action

/-- The values that an action works on. -/
def operands : Action → List Value
  | .param .. | .this _ => []
  | .nonNull _ v => [v]
  | .get _ _ receiver => receiver.toList
  | .invoke _ _ receiver args => receiver.toList ++ args
  | .index _ _ receiver args => receiver :: args
  | .convert _ _ v | .negate _ v => [v]
  | .arith _ _ l r => [l, r]

/-- The action runs a declared function, or keeps the range. -/
def KeepsRange (P : Decimal → Prop) (ds : List Declaration) (a : Action) : Prop :=
  a.Foreign ds ∨ ((∀ v ∈ a.operands, v.Within P) → ∀ frame, GivesWithin P (a.run frame))

/-- The exact result of an action on numbers, where it has a decimal for it. -/
def ideal? : Action → Option ℚ
  | .convert _ (.numeric .decimal) v => v.ideal?
  | .negate _ (.decimal d) => some (-d.toRat)
  | .arith _ op (.decimal a) (.decimal b) => op.ideal? a.toRat b.toRat
  | _ => none

/-- An action on decimals in range delivers its exact result. -/
theorem delivers {a : Action}
    (h : ∀ v ∈ a.operands, v.Within fun d => Decimal.Representable d.toRat) {q : ℚ}
    (hq : a.ideal? = some q) : DeliversDecimal q (a.run frame) := by
  unfold ideal? at hq
  split at hq
  · rename_i v
    refine delivers_convert hq ?_
    rintro d rfl
    exact within_decimal.mp (h _ List.mem_cons_self)
  · rename_i d
    cases hq
    rw [← Decimal.toRat_neg]
    refine delivers_self ?_
    rw [Decimal.toRat_neg]
    exact (within_decimal.mp (h _ List.mem_cons_self)).neg
  · rename_i op a b
    have ha := within_decimal.mp (h (.decimal a) (by simp [operands]))
    have hb := within_decimal.mp (h (.decimal b) (by simp [operands]))
    exact delivers_arith ha hb hq
  · cases hq

end Action

/-! ## Evaluation -/

/-- The inputs are within `P`. -/
structure Frame.Within (P : Decimal → Prop) (frame : Frame) : Prop where
  receiver : ∀ v ∈ frame.receiver, v.Within P
  values : ∀ v ∈ frame.values, v.Within P

/-- What a node does keeps the range, and a constant is in it. -/
def Bound.KeepsRange (P : Decimal → Prop) (ds : List Declaration) : Bound → Prop
  | .const _ v => v.Within P
  | .member ty _ m => ∀ receiver, (Action.get ty m receiver).KeepsRange P ds
  | .call ty _ m _ => ∀ receiver args, (Action.invoke ty m receiver args).KeepsRange P ds
  | .index ty _ i _ => ∀ receiver args, (Action.index ty i receiver args).KeepsRange P ds
  | .convert ty c _ => ∀ v, (Action.convert ty c v).KeepsRange P ds
  | .param .. | .this _ | .negate .. | .binary .. => True

namespace Traced

variable {α β : Type} {Q : α → Prop} {R : β → Prop}

/-- If the declared functions that are run keep the range, the result has `Q` and all actions work
on and give values in range. -/
def KeepsRange (P : Decimal → Prop) (ds : List Declaration) (frame : Frame) (Q : α → Prop)
    (x : Traced α) : Prop :=
  (∀ a ∈ x.actions, a.Foreign ds → GivesWithin P (a.run frame)) →
    (∀ v, x.outcome = .ok v → Q v) ∧
      ∀ a ∈ x.actions, (∀ v ∈ a.operands, v.Within P) ∧ GivesWithin P (a.run frame)

theorem KeepsRange.pure {a : α} (h : Q a) : KeepsRange P ds frame Q (pure a) := by
  refine fun _ => ⟨fun v hv => ?_, fun a ha => ?_⟩
  · cases hv
    exact h
  · cases ha

theorem KeepsRange.bind {x : Traced α} {f : α → Traced β} (hx : KeepsRange P ds frame Q x)
    (hf : ∀ v, Q v → KeepsRange P ds frame R (f v)) : KeepsRange P ds frame R (x >>= f) := by
  intro hforeign
  obtain ⟨hout, hacts⟩ := hx fun a ha => hforeign a (mem_bind_actions.mpr (.inl ha))
  have hrest : ∀ v, x.outcome = .ok v → _ := fun v hv =>
    hf v (hout v hv) fun a ha => hforeign a (mem_bind_actions.mpr (.inr ⟨v, hv, ha⟩))
  refine ⟨fun w hw => ?_, fun a ha => ?_⟩
  · rw [bind_outcome] at hw
    obtain ⟨v, hv, hw⟩ := Except.bind_ok hw
    exact (hrest v hv).1 w hw
  · rcases mem_bind_actions.mp ha with ha | ⟨v, hv, ha⟩
    · exact hacts a ha
    · exact (hrest v hv).2 a ha

theorem KeepsRange.act {a : Action} (h : ∀ v ∈ a.operands, v.Within P)
    (ha : a.Foreign ds ∨ GivesWithin P (a.run frame)) :
    KeepsRange P ds frame (Value.Within P) (act frame a) := by
  intro hforeign
  have hgives : GivesWithin P (a.run frame) := ha.elim (hforeign a List.mem_cons_self) id
  exact ⟨hgives, List.forall_mem_singleton.mpr ⟨h, hgives⟩⟩

/-- An action that keeps the range, on values in range. -/
theorem KeepsRange.run {a : Action} (h : a.KeepsRange P ds)
    (hoperands : ∀ v ∈ a.operands, v.Within P) :
    KeepsRange P ds frame (Value.Within P) (Traced.act frame a) :=
  .act hoperands (h.imp_right fun h => h hoperands frame)

theorem KeepsRange.nonNull (reading : String) {v : Value} (hv : v.Within P) :
    KeepsRange P ds frame (Value.Within P) (Traced.act frame (.nonNull reading v)) := by
  refine .act (List.forall_mem_singleton.mpr hv) (.inr fun w hw => ?_)
  cases v <;> cases hw <;> exact hv

end Traced

namespace Bound

open Traced

mutual

/-- **Evaluation keeps the range**, if the inputs are in it. -/
theorem evaluate_keeps_range (hP : RangeRules P) (hf : frame.Within P) : ∀ {b : Bound},
    (∀ n ∈ b.nodes, n.KeepsRange P ds) →
      Traced.KeepsRange P ds frame (Value.Within P) (b.evaluate frame)
  | .const ty v, h => by
    simp only [evaluate]
    exact .pure (h (.const ty v) (by simp))
  | .param ty i, h => by
    simp only [evaluate]
    refine .act nofun (.inr fun v hv => ?_)
    simp only [Action.run] at hv
    split at hv
    · rename_i hi
      cases hv
      exact hf.values _ (List.mem_of_getElem? hi)
    · cases hv
  | .this ty, h => by
    simp only [evaluate]
    refine .act nofun (.inr fun v hv => ?_)
    simp only [Action.run] at hv
    split at hv
    · rename_i hr
      cases hv
      exact hf.receiver _ hr
    · cases hv
  | .member ty none m, h => by
    simp only [evaluate]
    exact .run (h (.member ty none m) (by simp) none) nofun
  | .member ty (some target) m, h => by
    rw [nodes, List.forall_mem_cons] at h
    simp only [evaluate]
    exact (evaluate_keeps_range hP hf h.2).bind fun v hv =>
      (KeepsRange.nonNull _ hv).bind fun w hw =>
      .run (h.1 _) (List.forall_mem_singleton.mpr hw)
  | .call ty none m args, h => by
    obtain ⟨hcall, hargs⟩ := forall_nodes_staticCall.mp h
    simp only [evaluate]
    exact (evaluateAll_keeps_range hP hf (forall_nodesAll.mpr hargs)).bind fun vs hvs =>
      .run (hcall _ _) hvs
  | .call ty (some target) m args, h => by
    obtain ⟨hcall, htarget, hargs⟩ := forall_nodes_call.mp h
    simp only [evaluate]
    exact (evaluate_keeps_range hP hf htarget).bind fun v hv =>
      (KeepsRange.nonNull _ hv).bind fun w hw =>
      (evaluateAll_keeps_range hP hf (forall_nodesAll.mpr hargs)).bind fun vs hvs =>
        .run (hcall _ _) (List.forall_mem_cons.mpr ⟨hw, hvs⟩)
  | .index ty target i args, h => by
    obtain ⟨hindex, htarget, hargs⟩ := forall_nodes_index.mp h
    simp only [evaluate]
    exact (evaluate_keeps_range hP hf htarget).bind fun v hv =>
      (KeepsRange.nonNull _ hv).bind fun w hw =>
      (evaluateAll_keeps_range hP hf (forall_nodesAll.mpr hargs)).bind fun vs hvs =>
        .run (hindex _ _) (List.forall_mem_cons.mpr ⟨hw, hvs⟩)
  | .convert ty c operand, h => by
    obtain ⟨hconvert, hoperand⟩ := forall_nodes_convert.mp h
    simp only [evaluate]
    exact (evaluate_keeps_range hP hf hoperand).bind fun v hv =>
      .run (hconvert v) (List.forall_mem_singleton.mpr hv)
  | .negate ty operand, h => by
    obtain ⟨-, hoperand⟩ := forall_nodes_negate.mp h
    simp only [evaluate]
    exact (evaluate_keeps_range hP hf hoperand).bind fun v hv =>
      .act (List.forall_mem_singleton.mpr hv) (.inr (givesWithin_negate hP hv))
  | .binary ty op left right, h => by
    obtain ⟨-, hleft, hright⟩ := forall_nodes_binary.mp h
    simp only [evaluate]
    exact (evaluate_keeps_range hP hf hleft).bind fun v hv =>
      (evaluate_keeps_range hP hf hright).bind fun w hw =>
        .act (List.forall_mem_cons.mpr ⟨hv, List.forall_mem_singleton.mpr hw⟩)
          (.inr (givesWithin_arith hP op v w))

theorem evaluateAll_keeps_range (hP : RangeRules P) (hf : frame.Within P) : ∀ {bs : List Bound},
    (∀ n ∈ nodesAll bs, n.KeepsRange P ds) →
      Traced.KeepsRange P ds frame (fun vs => ∀ v ∈ vs, v.Within P) (evaluateAll frame bs)
  | [], _ => by
    simp only [evaluateAll]
    exact .pure (by simp)
  | b :: bs, h => by
    rw [nodesAll, List.forall_mem_append] at h
    simp only [evaluateAll]
    exact (evaluate_keeps_range hP hf h.1).bind fun v hv =>
      (evaluateAll_keeps_range hP hf h.2).bind fun vs hvs =>
        .pure (List.forall_mem_cons.mpr ⟨hv, hvs⟩)

end

/-! ## Binding -/

/-- Constants that are computed beforehand are in range, as their operands are. -/
theorem keepsRange_simplifyRules (hP : RangeRules P) :
    SimplifyRules (fun _ => True) (Bound.KeepsRange P ds) where
  const := by
    rintro ty v (⟨hw, hv⟩ | ⟨hw, hv⟩ | ⟨hl, hr, hv⟩)
    · rename_i c w
      cases c with
      | identity =>
        cases hv
        exact hw
      | numeric kind => exact givesWithin_convert hP hw kind v (Except.toOption_eq_some hv)
      | custom run => cases hv
    · exact givesWithin_negate hP hw v hv
    · exact givesWithin_arith hP _ _ _ v hv
  convert _ := ⟨trivial, id⟩
  negate _ := ⟨trivial, id⟩
  binary _ := ⟨⟨trivial, trivial⟩, id⟩

end Bound

namespace Registry

/-- The functions of a registry were declared by `ds`, or keep the range. -/
structure KeepsRange (P : Decimal → Prop) (ds : List Declaration) (r : Registry) : Prop where
  entry : ∀ key entry, r.classes.get? key = some entry →
    entry.MadeOf fun owner item => Declared ds owner item ∨ item.KeepsRange P
  conversion : ∀ source target run, r.conversions.get? (source, target) = some run →
    .conversion source target run ∈ ds

variable {r : Registry}

theorem MadeOf.keepsRange {own : List Declaration} (h : r.MadeOf (own ++ ds))
    (hown : ∀ d ∈ own, d.KeepsRange P) : r.KeepsRange P ds where
  entry key entry hentry := by
    refine (h.entry key entry hentry).mono ?_
    rintro owner item ⟨⟨items, hitems, hitem⟩, -⟩
    rcases List.mem_append.mp hitems with hitems | hitems
    · exact .inr (hown _ hitems item hitem)
    · exact .inl ⟨items, hitems, hitem⟩
  conversion source target run hrun := by
    rcases List.mem_append.mp (h.conversion source target run hrun) with hd | hd
    · exact (hown _ hd).elim
    · exact hd

theorem IsInitial.keepsRange (hP : RangeRules P) (h : r.IsInitial) {own : List Declaration}
    (hown : own ⊆ ds) : (r.declareAll own).KeepsRange P ds := by
  obtain ⟨builtin, hmade, hbuiltin⟩ := h.madeOf
  have hmore : builtin ++ own ⊆ builtin ++ ds :=
    List.append_subset.mpr
      ⟨List.subset_append_left .., fun d hd => List.mem_append_right _ (hown hd)⟩
  refine ((hmade own).mono hmore).keepsRange fun d hd => ?_
  rcases hbuiltin d hd with hd | ⟨f, rfl⟩
  · exact builtins_keepsRange hP d hd
  · exact f.declaration_keepsRange

namespace KeepsRange

variable (h : r.KeepsRange P ds)

theorem givesWithin_withReceiver {run : Value → Outcome} {receiver : Option Value}
    (hrun : ∀ v ∈ receiver, GivesWithin P (run v)) : GivesWithin P (withReceiver run receiver) := by
  cases receiver with
  | none => exact givesWithin_error
  | some v => exact hrun v rfl

theorem givesWithin_withArray {run : Grid Value → Outcome} {receiver : Option Value}
    (hrun : ∀ grid, some (.array grid) = receiver → GivesWithin P (run grid)) :
    GivesWithin P (withArray run receiver) := by
  unfold withArray
  split
  · exact hrun _ rfl
  · exact givesWithin_error
  · exact givesWithin_error

include h

theorem member {owner : Ty} {name : String} {f : Member}
    (hf : r.findMember owner name = some f) (ty : Ty) (receiver : Option Value) :
    (Action.get ty f receiver).KeepsRange P ds := by
  rcases findMember_cases hf with ⟨_, _, -, rfl⟩ | ⟨entry, m, hentry, hm, rfl⟩
  · refine .inr fun _ _ => givesWithin_withArray fun grid _ => ?_
    exact givesWithin_nil (by simp [ofInt, decimals])
  · obtain ⟨owner', item, hitem, hm'⟩ := (h.entry _ entry hentry).member name m hm
    refine hitem.imp (fun hd => ⟨owner', item, m, hd, hm', rfl⟩) fun hkeeps hoperands _ => ?_
    cases item <;> cases hm'
    · exact givesWithin_withReceiver fun v hv =>
      hkeeps v (hoperands v (by simp_all [Action.operands]))
    · exact hkeeps

theorem method {owner : Ty} {name : String} {generics types params : List Ty} {f : Method}
    (hf : r.findMethod owner name generics types = some (f, params)) (ty : Ty)
    (receiver : Option Value) (args : List Value) :
    (Action.invoke ty f receiver args).KeepsRange P ds := by
  obtain ⟨entry, e, hentry, he, -, -, rfl⟩ := findMethod_cases hf
  obtain ⟨owner', item, hitem, he'⟩ := (h.entry _ entry hentry).method e he
  refine hitem.imp (fun hd => ⟨owner', item, e, hd, he', rfl⟩) fun hkeeps hoperands _ => ?_
  simp only [Action.operands, List.forall_mem_append, Option.mem_toList] at hoperands
  cases item <;> cases he'
  · exact givesWithin_withReceiver fun v hv => hkeeps v args (hoperands.1 v hv) hoperands.2
  · exact hkeeps args hoperands.2

theorem indexer {owner : Ty} {types params : List Ty} {f : Indexer}
    (hf : r.findIndexer owner types = some (f, params)) (ty : Ty) (receiver : Value)
    (args : List Value) :
    (Action.index ty f receiver args).KeepsRange P ds := by
  rcases findIndexer_cases hf with ⟨element, rank, -, rfl, -⟩ | ⟨entry, i, hentry, hi, -, rfl⟩
  · refine .inr fun hoperands _ => givesWithin_withArray fun grid hgrid => ?_
    cases hgrid
    intro w hw
    obtain ⟨is, -, hw⟩ := Except.bind_ok hw
    obtain ⟨position, -, hposition⟩ : ∃ p, grid.position is = .ok p ∧ grid.items[p]? = some w := by
      unfold Grid.get at hw
      split at hw
      · cases hw
      · rename_i p hp
        split at hw
        · cases hw
          exact ⟨p, hp, ‹_›⟩
        · cases hw
    exact (hoperands _ List.mem_cons_self).item (List.mem_of_getElem? hposition)
  · obtain ⟨owner', item, hitem, hi'⟩ := (h.entry _ entry hentry).indexer i hi
    refine hitem.imp (fun hd => ⟨owner', item, i, hd, hi', rfl⟩) fun hkeeps hoperands _ => ?_
    obtain ⟨hreceiver, hargs⟩ := List.forall_mem_cons.mp hoperands
    cases item <;> cases hi'
    exact hkeeps receiver args hreceiver hargs

theorem implicit (hP : RangeRules P) {source target : Ty} {c : Conversion} (hne : source ≠ target)
    (hc : r.implicitConversion source target = some c) (ty : Ty) (v : Value) :
    (Action.convert ty c v).KeepsRange P ds := by
  rcases implicitConversion_cases hc hne with ⟨rfl, -⟩ | ⟨a, b, -, -, rfl⟩ | ⟨run, hrun, rfl⟩
  · exact .inr fun hv _ => givesWithin_ok (hv v List.mem_cons_self)
  · exact .inr fun hv _ => givesWithin_convert hP (hv v List.mem_cons_self) b
  · exact .inl ⟨source, target, h.conversion _ _ _ hrun⟩

/-- Every step of binding makes nodes that keep the range, of literals. -/
theorem invariant (hP : RangeRules P) (context : Context) (maxDepth : ℕ) (simplify : Bool) :
    (BindEnv.mk r.host context maxDepth simplify).Invariant
      (fun b => ∀ n ∈ b.nodes, n.KeepsRange P ds) Value.IsLiteral where
  finish := by
    intro b hb
    cases simplify with
    | false => exact hb
    | true => exact (Bound.keepsRange_simplifyRules hP).forall_nodes trivial hb
  const v hv := List.forall_mem_singleton.mpr (within_of_isLiteral hP hv)
  param _ := List.forall_mem_singleton.mpr trivial
  this _ := List.forall_mem_singleton.mpr trivial
  staticMember hf _ := List.forall_mem_singleton.mpr (h.member hf _)
  member hb hf _ := List.forall_mem_cons.mpr ⟨h.member hf _, hb⟩
  staticCall hf _ hargs _ := Bound.forall_nodes_staticCall.mpr ⟨h.method hf _, hargs⟩
  call hb hf _ hargs _ := Bound.forall_nodes_call.mpr ⟨h.method hf _, hb, hargs⟩
  index hb hf hargs _ := Bound.forall_nodes_index.mpr ⟨h.indexer hf _, hb, hargs⟩
  implicit hb hne hc := Bound.forall_nodes_convert.mpr ⟨h.implicit hP hne hc _, hb⟩
  numeric hb _ := Bound.forall_nodes_convert.mpr
    ⟨fun v => .inr fun hv _ => givesWithin_convert hP (hv v List.mem_cons_self) _, hb⟩
  negate hb _ _ := Bound.forall_nodes_negate.mpr ⟨trivial, hb⟩
  binary hl hr _ _ _ := Bound.forall_nodes_binary.mpr ⟨trivial, hl, hr⟩

end KeepsRange

end Registry

/-! ## Compiled expressions -/

/-- The constants of a text are literals. -/
theorem readRules_literals : ReadRules (fun _ => True) (Node.LiteralsIn Value.IsLiteral)
    (Node.LiteralsIn Value.IsLiteral) fun s => ∀ n ∈ s.args, n.LiteralsIn Value.IsLiteral where
  block _ hitems := Node.forall_elements_block.mpr ⟨nofun, hitems⟩
  parentheses _ hitems := Node.forall_elements_block.mpr ⟨nofun, hitems⟩
  constant _ v hv := List.forall_mem_singleton.mpr fun w hw => by
    cases hw
    exact hv
  operator _ _ := List.forall_mem_singleton.mpr nofun
  unresolved _ _ := List.forall_mem_singleton.mpr nofun
  member _ _ _ := nofun
  method _ _ _ hargs := hargs
  indexer _ _ hargs := hargs
  route _ _ h := Node.forall_elements_route.mpr ⟨nofun, fun s hs => ⟨nofun, h s hs⟩⟩

namespace Binder

theorem prepare_literals {b : Binder} {context : Context} {source : String} {p : Prepared}
    (h : b.prepare context source = .ok p) : p.root.LiteralsIn Value.IsLiteral := by
  obtain ⟨-, root, nodes, hread, harrange, -⟩ := prepare_ok h
  have hplain : PlainItem root := .inr (Node.ofSource_yields hread).2
  have hroot := (readRules_literals.ofSource (fun _ _ _ _ _ _ => trivial) hread).2
  exact (((b.scope context).keeps_literals _).arrange ⟨hplain, hroot⟩ harrange).2

/-- The binder knows what is built in, and declarations of `ds`. -/
def Declares (ds : List Declaration) (b : Binder) : Prop :=
  ∃ (base : Registry) (own : List Declaration), base.IsInitial ∧ own ⊆ ds ∧
    b.host = (base.declareAll own).host

end Binder

/-- The forms that a prepared text can have: at first, and after any number of bindings, in any
contexts, by binders that know declarations of `ds`. -/
inductive Prepared.Over (ds : List Declaration) : Prepared → Prop
  | prepare {b : Binder} {context : Context} {source : String} {p : Prepared} :
    b.Declares ds → b.prepare context source = .ok p → p.Over ds
  | bind {p : Prepared} {b : Binder} (context : Context) :
    p.Over ds → b.Declares ds → (b.bind context p).2.Over ds

/-- The literals of a prepared text are in range, and so is all that its slots keep. -/
structure Prepared.KeepsRange (P : Decimal → Prop) (ds : List Declaration) (p : Prepared) :
    Prop where
  nodup : p.root.slots.Nodup
  literals : p.root.LiteralsIn Value.IsLiteral
  slots : p.slots.All fun b => ∀ n ∈ b.nodes, n.KeepsRange P ds

namespace Binder

/-- A binding keeps the range, by what it gives and what it leaves in the slots. -/
theorem bind_keepsRange (hP : RangeRules P) {b : Binder} (hb : b.Declares ds) (context : Context)
    {p : Prepared} (hp : p.KeepsRange P ds) :
    (b.bind context p).2.KeepsRange P ds ∧
      ∀ c, (b.bind context p).1 = .ok c → ∀ n ∈ c.root.nodes, n.KeepsRange P ds := by
  obtain ⟨base, own, hbase, hown, hhost⟩ := hb
  have hinvariant := (hbase.keepsRange hP hown).invariant hP context b.limits.treeDepth b.simplify
  rw [← hhost] at hinvariant
  obtain ⟨hslots, hroot⟩ := hinvariant.resolve hp.nodup hp.literals p.slots hp.slots
  refine ⟨⟨hp.nodup, hp.literals, hslots⟩, fun c hc => ?_⟩
  obtain ⟨root, hrun, rfl⟩ := Except.map_ok hc
  exact hroot root hrun

end Binder

theorem Prepared.Over.keepsRange (hP : RangeRules P) {p : Prepared} (h : p.Over ds) :
    p.KeepsRange P ds := by
  induction h with
  | prepare _ hp =>
    obtain ⟨hnumbered, hslots⟩ := Binder.prepare_numbered hp
    refine ⟨hnumbered.1, Binder.prepare_literals hp, fun i b hb => ?_⟩
    rw [hslots, Slots.get?_empty] at hb
    cases hb
  | bind context _ hb ih => exact (Binder.bind_keepsRange hP hb context ih).1

namespace Binder

/-- **Decimals stay in range**: let the decimals of the receiver, of the parameters and of what
declared functions give be in range, either as numbers or as mantissas and scales. Then so are the
constants of a compiled expression, with and without simplification, its result, and what each
action of its evaluation gives. A number that an action computes and that cannot be brought into
range is reported. The text may have been bound before, in other contexts and by other binders, and
what these calls left is used again. -/
theorem decimals_in_range {P : Decimal → Prop}
    (hP : P = Decimal.Kept ∨ P = fun d => Decimal.Representable d.toRat) {ds : List Declaration}
    {p : Prepared} (hp : p.Over ds) {b : Binder} (hb : b.Declares ds) {context : Context}
    {c : Compiled} (hc : (b.bind context p).1 = .ok c) {receiver : Option Value}
    {values : List Value} (hreceiver : ∀ v ∈ receiver, v.Within P)
    (hvalues : ∀ v ∈ values, v.Within P)
    (hforeign : ∀ a ∈ c.root.actions ⟨receiver, values⟩, a.Foreign ds →
      GivesWithin P (a.run ⟨receiver, values⟩)) :
    (∀ ty v, .const ty v ∈ c.root.nodes → v.Within P) ∧ GivesWithin P (c.eval receiver values) ∧
      ∀ a ∈ c.root.actions ⟨receiver, values⟩, GivesWithin P (a.run ⟨receiver, values⟩) ∧
        ∀ q, a.ideal? = some q → DeliversDecimal q (a.run ⟨receiver, values⟩) := by
  have hrules : RangeRules P := by
    rcases hP with rfl | rfl
    · exact Decimal.rangeRules_kept
    · exact Decimal.rangeRules_representable
  have hrepresentable : ∀ {v : Value}, v.Within P → v.Within fun d =>
      Decimal.Representable d.toRat := by
    rcases hP with rfl | rfl
    · exact fun hv d hd => (hv d hd).representable
    · exact id
  have hnodes := (bind_keepsRange hrules hb context (hp.keepsRange hrules)).2 c hc
  obtain ⟨hresult, hactions⟩ :=
    Bound.evaluate_keeps_range hrules ⟨hreceiver, hvalues⟩ hnodes hforeign
  refine ⟨fun ty v hv => hnodes _ hv, fun v hv => hresult v ?_,
    fun a ha => ⟨(hactions a ha).2, fun q hq => ?_⟩⟩
  · rw [Bound.evaluate_outcome]
    unfold Compiled.eval at hv
    split at hv
    · cases hv
    · exact hv
  · exact a.delivers (fun v hv => hrepresentable ((hactions a ha).1 v hv)) hq

/-- A declaration of one decimal. -/
def rateDeclaration : Declaration :=
  .extend (.named none "Deep" [])
    [.staticProperty "Rate" (.numeric .decimal) (.ok (.decimal ⟨1, 1⟩))]

theorem rate_within {a : Action} {frame : Frame} (h : a.Foreign [rateDeclaration]) :
    GivesWithin Decimal.Kept (a.run frame) := by
  have hitem : ∀ {owner item}, Declared [rateDeclaration] owner item →
      item = .staticProperty "Rate" (.numeric .decimal) (.ok (.decimal ⟨1, 1⟩)) := by
    rintro owner item ⟨items, hitems, hitem⟩
    cases List.mem_singleton.mp hitems
    exact List.mem_singleton.mp hitem
  cases a with
  | get ty m receiver =>
    obtain ⟨owner, item, found, hd, hm, hget⟩ := h
    cases hitem hd
    cases hm
    show GivesWithin Decimal.Kept (m.get receiver)
    rw [← hget]
    exact givesWithin_ok
      (within_decimal.mpr ⟨by decide, by norm_num [Decimal.toRat, Decimal.limit]⟩)
  | invoke ty m receiver args =>
    obtain ⟨owner, item, found, hd, hm, -⟩ := h
    cases hitem hd
    cases hm
  | index ty i receiver args =>
    obtain ⟨owner, item, found, hd, hm, -⟩ := h
    cases hitem hd
    cases hm
  | convert ty c v =>
    cases c with
    | custom run =>
      obtain ⟨source, target, hd⟩ := h
      cases List.mem_singleton.mp hd
    | identity | numeric => exact h.elim
  | _ => exact h.elim

/-- A declared rate, an integer, a quotient without a last digit and a magnitude. The text is bound
twice: at first without the last parameter, which fails and leaves the rest of it bound without
simplification. -/
theorem decimals_in_range_rate :
    let host := ((Registry.standard []).declareAll [rateDeclaration]).host
    let context : Context := ⟨none, [⟨"x", .i32⟩, ⟨"y", .numeric .decimal⟩]⟩
    ∃ p c v, prepare ⟨host, .standard, true⟩ context "Deep.Rate * x / 3 - |y|" = .ok p ∧
      (∃ e, (bind ⟨host, .standard, false⟩ ⟨none, [⟨"x", .i32⟩]⟩ p).1 = .error e) ∧
      (bind ⟨host, .standard, true⟩ context
        (bind ⟨host, .standard, false⟩ ⟨none, [⟨"x", .i32⟩]⟩ p).2).1 = .ok c ∧
      c.eval none [.ofInt .i32 7, .decimal ⟨-25, 1⟩] = .ok v ∧ v.Within Decimal.Kept := by
  intro host context
  have hok :
      ((prepare ⟨host, .standard, true⟩ context "Deep.Rate * x / 3 - |y|").toOption.bind fun p =>
      if (bind ⟨host, .standard, false⟩ ⟨none, [⟨"x", .i32⟩]⟩ p).1.toOption.isSome then none
      else (bind ⟨host, .standard, true⟩ context
        (bind ⟨host, .standard, false⟩ ⟨none, [⟨"x", .i32⟩]⟩ p).2).1.toOption.bind fun c =>
          (c.eval none [.ofInt .i32 7, .decimal ⟨-25, 1⟩]).toOption).isSome = true := by
    decide +kernel
  obtain ⟨v, hv⟩ := Option.isSome_iff_exists.mp hok
  obtain ⟨p, hp, hv⟩ := Option.bind_eq_some_iff.mp hv
  obtain ⟨hfails, hv⟩ := Option.ite_none_left_eq_some.mp hv
  obtain ⟨c, hc, hv⟩ := Option.bind_eq_some_iff.mp hv
  have hp := Except.toOption_eq_some hp
  have hc := Except.toOption_eq_some hc
  have hv := Except.toOption_eq_some hv
  have hdeclares : ∀ limits simplify, Declares [rateDeclaration] ⟨host, limits, simplify⟩ :=
    fun _ _ => ⟨_, _, .inr ⟨[], rfl⟩, List.Subset.refl _, rfl⟩
  have hover : Prepared.Over [rateDeclaration] _ :=
    .bind (b := ⟨host, .standard, false⟩) ⟨none, [⟨"x", .i32⟩]⟩ (.prepare (hdeclares _ _) hp)
      (hdeclares _ _)
  have hvalues : ∀ v ∈ [Value.ofInt .i32 7, .decimal ⟨-25, 1⟩], v.Within Decimal.Kept := by
    refine List.forall_mem_cons.mpr ⟨within_of_nil (by simp [ofInt, decimals]), ?_⟩
    refine List.forall_mem_singleton.mpr (within_decimal.mpr ⟨by decide, ?_⟩)
    norm_num [Decimal.toRat, Decimal.limit]
  have hwithin :=
    (decimals_in_range (.inl rfl) hover (hdeclares _ _) hc (fun v hv => by cases hv) hvalues
    fun a _ ha => rate_within ha).2.1 v hv
  refine ⟨p, c, v, hp, ?_, hc, hv, hwithin⟩
  cases hfirst : (bind ⟨host, .standard, false⟩ ⟨none, [⟨"x", .i32⟩]⟩ p).1 with
  | error e => exact ⟨e, rfl⟩
  | ok c' => exact (hfails (by rw [hfirst]; rfl)).elim

end Binder

end Formula
