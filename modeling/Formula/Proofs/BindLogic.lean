import Formula.Proofs.Comparison
import Formula.Proofs.Shape

/-!
# A logic of binding

Binding keeps what it binds in slots, finds fault with the shape of a tree, and stops at the first
error. What is proved of it by going through its steps is proved here once, for a `BindLogic`: a
property `holds W x` of computations, where `W` is what a success means.

* `Resolves env e x`: running `x` is what it means to bind the element `e` of a tree.
* `BindLogic.task`: the logic holds of the binding of every node, and a success means that it is
  well shaped.
-/

namespace Formula

open Grammar

/-! ## What has a slot -/

namespace Node

/-- What binding a node runs if its slot is free, but for the bound on depth. -/
def body (env : BindEnv) : Node → Resolving Bound
  | .constant _ v => pure (.const (literalType v) v)
  | .operator mark op => throw (.parse mark.offset (.unexpectedOperator op))
  | .unresolved _ raw => throw (.unsupported (.unrecognized raw))
  | .cast _ _ target signs operand => env.bindCast target signs (task env operand)
  | .route _ head segments => env.bindRoute head (segments.map (Segment.map (task env)))
  | .block _ items => env.foldItems (items.map (task env))

theorem task_eq_kept (env : BindEnv) (n : Node) : n.task env = kept env n (n.body env) := by
  cases n <;> simp [task, body, tasks_eq_map, taskSegments_eq_map]

end Node

/-- Running `x` is binding the element in an environment: a node; a bare name or a call at the head
of a route; a segment behind a type; or a segment behind a target. -/
inductive Resolves (env : BindEnv) : Element → Resolving Bound → Prop
  | node (n : Node) : Resolves env (.node n) (do env.bounded (← n.body env))
  | parameter {name : String} {i : Nat} {p : Parameter} (mark : Mark)
      (h : env.context.parameter? name = some (i, p)) :
    Resolves env (.segment (.member mark name [])) (pure (.param p.ty i))
  | receiver {base : Ty} (mark : Mark) (h : env.context.base = some base) :
    Resolves env (.segment (.member mark "this" [])) (pure (.this base))
  | ownMember {base : Ty} {name : String} {found : Member} (mark : Mark)
      (h : env.context.base = some base) (hfound : env.host.findMember base name = some found)
      (hinstance : found.isStatic = false) :
    Resolves env (.segment (.member mark name []))
      (pure (.member found.ty (some (.this base)) found))
  | ownCall {base : Ty} (mark : Mark) (name : String) (generics : List TypeName) (args : List Node)
      (h : env.context.base = some base) :
    Resolves env (.segment (.method mark name generics args))
      (env.callMethod (some (.this base)) base name generics (args.map (Node.task env)))
  | static (ty : Ty) (segment : Segment Node) :
    Resolves env (.segment segment) (env.bindStatic ty (segment.map (Node.task env)))
  | link (target : Bound) (segment : Segment Node) :
    Resolves env (.segment segment)
      (do env.bounded (← env.bindInstance target (segment.map (Node.task env))))

/-- The arguments of a segment are well shaped. -/
def ShapedArgs (segment : Segment Node) : Prop := ∀ n ∈ segment.args, n.WellShaped

theorem shapedArgs_member {mark : Mark} {name : String} {generics : List TypeName} :
    ShapedArgs (.member mark name generics) := by
  simp [ShapedArgs, Segment.args]

namespace Element

/-- What a success in binding the element means. -/
def Shaped : Element → Prop
  | .node n => n.WellShaped
  | .segment s => ShapedArgs s

/-- The marks that stand in an element itself. -/
def marks : Element → List Mark
  | .node (.cast mark typeMark _ signs _) => mark :: typeMark :: signs.map (·.1)
  | e => [e.mark]

theorem mark_mem_marks (e : Element) : e.mark ∈ e.marks := by
  rcases e with n | segment
  · cases n <;> simp [marks, mark, Node.mark]
  · simp [marks]

end Element

/-! ## The logic record -/

/-- What goes through the steps of binding. -/
structure BindLogic (env : BindEnv) where
  holds : {α : Type} → Prop → Resolving α → Prop
  /-- The elements that have slots. -/
  kept : Element → Prop
  /-- The offsets that parse errors are reported at. -/
  reported : Nat → Prop
  /-- An empty block is reported at the start of the text. -/
  reported_zero : reported 0
  ret {α : Type} {W : Prop} {a : α} : W → holds W (pure a)
  refuse {α : Type} {W : Prop} {e : BuildError} : e.isParse = false →
    holds W (throw e : Resolving α)
  parse {α : Type} {W : Prop} {offset : Nat} {fault : ParseFault} : reported offset → ¬ W →
    holds W (throw (.parse offset fault) : Resolving α)
  bind {α β : Type} {V W : Prop} {x : Resolving α} {f : α → Resolving β} :
    holds V x → (∀ a, holds W (f a)) → holds (V ∧ W) (x >>= f)
  keep {e : Element} {x : Resolving Bound} : kept e → Resolves env e x → holds e.Shaped x →
    holds e.Shaped (BindMonad.keep e.mark.slot x)

namespace BindLogic

variable {env : BindEnv} (L : BindLogic env)

section

variable {α β : Type} {V W : Prop}

theorem congr {x : Resolving α} (h : L.holds V x) (hVW : V ↔ W) : L.holds W x := by
  rwa [← propext hVW]

/-- A first step that says nothing about the shape. -/
theorem after {x : Resolving α} {f : α → Resolving β} (hx : L.holds True x)
    (hf : ∀ a, L.holds W (f a)) : L.holds W (x >>= f) :=
  L.congr (L.bind hx hf) (by simp)

/-- Further steps that say nothing about the shape. -/
theorem before {x : Resolving α} {f : α → Resolving β} (hx : L.holds W x)
    (hf : ∀ a, L.holds True (f a)) : L.holds W (x >>= f) :=
  L.congr (L.bind hx hf) (by simp)

/-- A step without slots that says nothing about the shape. -/
theorem lift {x : Except BuildError α} (h : ∀ e, x = .error e → e.isParse = false) :
    L.holds True (ofExcept x : Resolving α) := by
  cases x with
  | ok a => exact L.ret trivial
  | error e => exact L.refuse (h e rfl)

end

/-- The logic holds of the binding of the node, and its offset may be reported. -/
structure Binds (n : Node) : Prop where
  reported : L.reported n.offset
  bind : L.holds n.WellShaped (n.task env).bind

/-! ## Blocks -/

theorem bounded (b : Bound) : L.holds True (env.bounded b) := by
  unfold BindEnv.bounded
  split
  · exact L.refuse rfl
  · exact L.ret trivial

theorem negateIf (negative : Bool) (b : Bound) :
    L.holds True (ofExcept (Formula.negateIf negative b)) := by
  refine L.lift fun e he => ?_
  unfold Formula.negateIf negateBound at he
  split at he
  · split at he
    · cases he
    · cases he
      rfl
  · cases he

theorem binaryBound (op : ArithOp) (l r : Bound) :
    L.holds True (ofExcept (Formula.binaryBound op l r)) := by
  refine L.lift fun e he => ?_
  rw [binaryBound_eq] at he
  split at he
  · cases he
  · cases he
    rfl

end BindLogic

/-- The items of a block are formed like an expression that goes on where `e` is expected, and are
well shaped. -/
def ShapedFrom (e : Expects) (ns : List Node) : Prop :=
  reads e (ns.map Node.token) = some .operator ∧ ∀ n ∈ ns, n.isOperator = true ∨ n.WellShaped

theorem shapedFrom_cons {e : Expects} {n : Node} {ns : List Node} :
    ShapedFrom e (n :: ns) ↔ (n.isOperator = true ∨ n.WellShaped) ∧
      ∃ e', e.next n.token = some e' ∧ ShapedFrom e' ns := by
  unfold ShapedFrom
  rw [List.map_cons, reads_cons, Option.bind_eq_some_iff, List.forall_mem_cons]
  tauto

theorem token_of_operator {n : Node} {o : Operator} (h : n.operator? = some o) :
    n.token = .op o := by
  simp [Node.token, h]

theorem token_of_item {n : Node} (h : n.operator? = none) : n.token = .item := by
  simp [Node.token, h]

/-- An item where an operand is expected. -/
theorem shapedFrom_item {e : Expects} (he : e = .start ∨ e = .operand) {n : Node} {ns : List Node}
    (hn : n.operator? = none) :
    ShapedFrom e (n :: ns) ↔ n.WellShaped ∧ ShapedFrom .operator ns := by
  rw [shapedFrom_cons, token_of_item hn]
  rcases he with rfl | rfl <;> simp [Node.isOperator, hn, Expects.next]

/-- Where an operand is expected there can be no operator, but for a sign at the start. -/
theorem not_shapedFrom_operand {n : Node} {ns : List Node} {o : Operator}
    (hn : n.operator? = some o) : ¬ ShapedFrom .operand (n :: ns) := by
  rw [shapedFrom_cons, token_of_operator hn]
  simp [Expects.next]

/-- Where an operator is expected there can be no operand. -/
theorem not_shapedFrom_operator {n : Node} {ns : List Node} (hn : n.operator? = none) :
    ¬ ShapedFrom .operator (n :: ns) := by
  rw [shapedFrom_cons, token_of_item hn]
  simp [Expects.next]

namespace BindLogic

variable {env : BindEnv} (L : BindLogic env)

theorem foldRest : ∀ (ns : List Node) (acc : Bound), (∀ n ∈ ns, L.Binds n) →
    L.holds (ShapedFrom .operator ns) (env.foldRest acc (ns.map (Node.task env)))
  | [], acc, _ => L.ret ⟨rfl, by simp⟩
  | .operator mark .bar :: rest, acc, h => by
    simp only [List.map_cons, BindEnv.foldRest, Node.task_node]
    refine L.parse (h _ List.mem_cons_self).reported ?_
    simp [shapedFrom_cons, Node.token, Node.operator?, Expects.next]
  | [.operator mark (.arith op)], acc, h => by
    simp only [List.map_cons, List.map_nil, BindEnv.foldRest, Node.task_node]
    refine L.parse (h _ List.mem_cons_self).reported ?_
    simp [ShapedFrom, reads, Node.token, Node.operator?, Expects.next]
  | .operator mark (.arith op) :: right :: rest, acc, h => by
    have hshape : ShapedFrom .operator (.operator mark (.arith op) :: right :: rest) ↔
        ShapedFrom .operand (right :: rest) := by
      rw [shapedFrom_cons]
      simp [Node.isOperator, Node.operator?, Node.token, Expects.next]
    have hbinds := h right (by simp)
    simp only [List.map_cons, BindEnv.foldRest, Node.task_node]
    cases hright : right.operator? with
    | some o =>
      rw [if_pos (by simp [Node.isOperator, hright])]
      refine L.parse hbinds.reported ?_
      rw [hshape]
      exact not_shapedFrom_operand hright
    | none =>
      rw [if_neg (by simp [Node.isOperator, hright])]
      have hrest := fun b => foldRest rest b fun n hn => h n (by simp [hn])
      have hbind := L.bind hbinds.bind fun r =>
        L.after (L.binaryBound op acc r) fun b => L.after (L.bounded b) hrest
      refine L.congr hbind ?_
      rw [hshape, shapedFrom_item (.inr rfl) hright]
  | .unresolved mark raw :: rest, acc, _ => by
    simp only [List.map_cons, BindEnv.foldRest, Node.task_node]
    exact L.refuse rfl
  | .constant .. :: rest, acc, h | .cast .. :: rest, acc, h | .route .. :: rest, acc, h
  | .block .. :: rest, acc, h => by
    simp only [List.map_cons, BindEnv.foldRest, Node.task_node]
    exact L.parse (h _ List.mem_cons_self).reported (not_shapedFrom_operator rfl)

theorem foldItems {ns : List Node} (h : ∀ n ∈ ns, L.Binds n) :
    L.holds (ShapedFrom .start ns) (env.foldItems (ns.map (Node.task env))) := by
  rw [Node.foldItems_map]
  have hrest : ∀ negative first rest, first ∈ ns → rest ⊆ ns →
      L.holds (first.WellShaped ∧ ShapedFrom .operator rest) (do
        let b ← (first.task env).bind
        let b ← ofExcept (Formula.negateIf negative b)
        let b ← env.foldRest b (rest.map (Node.task env))
        return env.finish b) := by
    intro negative first rest hfirst hsub
    refine L.bind (h first hfirst).bind fun b => L.after (L.negateIf negative b) fun b => ?_
    exact L.before (L.foldRest rest b fun n hn => h n (hsub hn)) fun b => L.ret trivial
  cases ns with
  | nil => exact L.parse L.reported_zero (by simp [ShapedFrom, reads])
  | cons n ns =>
    cases hn : n.operator? with
    | none =>
      have hsplit : Node.splitSign (n :: ns) = (false, n :: ns) := by simp [Node.splitSign, hn]
      rw [hsplit]
      simp only [hn]
      refine L.congr (hrest false n ns (by simp) (by simp)) ?_
      rw [shapedFrom_item (.inl rfl) hn]
    | some o =>
      by_cases hsign : o.isSign = true
      · have hsplit : Node.splitSign (n :: ns) = (decide (o = .arith .sub), ns) := by
          simp [Node.splitSign, hn, hsign]
        have hshape : ShapedFrom .start (n :: ns) ↔ ShapedFrom .operand ns := by
          rw [shapedFrom_cons, token_of_operator hn]
          simp [Node.isOperator, hn, Expects.next, hsign]
        rw [hsplit]
        refine L.congr ?_ hshape.symm
        cases ns with
        | nil => exact L.parse (h n List.mem_cons_self).reported (by simp [ShapedFrom, reads])
        | cons first rest =>
          cases hfirst : first.operator? with
          | some o' =>
            simp only [hfirst]
            exact L.parse (h first (by simp)).reported (not_shapedFrom_operand hfirst)
          | none =>
            simp only [hfirst]
            have hsub : rest ⊆ n :: first :: rest := fun m hm => by simp [hm]
            refine L.congr (hrest _ first rest (by simp) hsub) ?_
            rw [shapedFrom_item (.inr rfl) hfirst]
      · have hsplit : Node.splitSign (n :: ns) = (false, n :: ns) := by
          simp [Node.splitSign, hn, hsign]
        rw [hsplit]
        simp only [hn]
        refine L.parse (h n List.mem_cons_self).reported ?_
        rw [shapedFrom_cons, token_of_operator hn]
        simp [Expects.next, hsign]

/-! ## Casts -/

theorem castSign {signs : List (Mark × Operator)} (h : ∀ sign ∈ signs, L.reported sign.1.offset) :
    L.holds (IsCastSign signs) (ofExcept (BindEnv.castSign signs)) := by
  rcases signs with _ | ⟨⟨mark, o⟩, rest⟩
  · exact L.ret trivial
  · obtain ⟨hmark, hrest⟩ := List.forall_mem_cons.mp h
    cases hsign : o.isSign with
    | false =>
      simp only [BindEnv.castSign, hsign, Bool.false_eq_true, if_false]
      refine L.parse hmark fun hshape => ?_
      cases rest <;> simp [IsCastSign, hsign] at hshape
    | true =>
      simp only [BindEnv.castSign, hsign, if_true]
      rcases rest with _ | ⟨second, rest⟩
      · exact L.ret hsign
      · exact L.parse (hrest second List.mem_cons_self) id

theorem castBound (b : Bound) (target : TypeName) :
    L.holds True (ofExcept (env.castBound b target)) := by
  refine L.lift fun e he => ?_
  unfold BindEnv.castBound at he
  split at he
  · cases he
    rfl
  · split at he
    · cases he
    · simp only at he
      split at he
      · cases he
      · cases he
        rfl

theorem bindCast {operand : Node} (target : TypeName) {signs : List (Mark × Operator)}
    (hsigns : ∀ sign ∈ signs, L.reported sign.1.offset) (h : L.Binds operand) :
    L.holds (IsCastSign signs ∧ operand.WellShaped)
      (env.bindCast target signs (operand.task env)) := by
  refine L.bind (L.castSign hsigns) fun negative => L.before h.bind fun b => ?_
  refine L.after (L.negateIf negative b) fun b => ?_
  exact L.after (L.castBound b target) fun b => L.ret trivial

/-! ## Calls and indexers -/

theorem bindAll {ns : List Node} (h : ∀ n ∈ ns, L.Binds n) :
    L.holds (∀ n ∈ ns, n.WellShaped) (Formula.bindAll (ns.map (Node.task env))) := by
  induction ns with
  | nil => exact L.ret (by simp)
  | cons n ns ih =>
    obtain ⟨hn, hns⟩ := List.forall_mem_cons.mp h
    refine L.congr (L.bind hn.bind fun b => L.before (ih hns) fun bs => ?_)
      List.forall_mem_cons.symm
    exact L.ret trivial

theorem resolveGenerics (generics : List TypeName) :
    L.holds True (ofExcept (env.resolveGenerics generics)) := by
  refine L.lift ?_
  induction generics with
  | nil => exact nofun
  | cons t ts ih =>
    intro e he
    unfold BindEnv.resolveGenerics at he
    split at he
    · cases he
      rfl
    · exact ih e (Except.map_error he)

theorem callMethod {args : List Node} (target : Option Bound) (owner : Ty) (name : String)
    (generics : List TypeName) (h : ∀ n ∈ args, L.Binds n) :
    L.holds (∀ n ∈ args, n.WellShaped)
      (env.callMethod target owner name generics (args.map (Node.task env))) := by
  refine L.after (L.resolveGenerics generics) fun tys => L.before (L.bindAll h) fun bs => ?_
  simp only
  split
  · exact L.refuse rfl
  · split
    · exact L.refuse rfl
    · split
      · exact L.refuse rfl
      · exact L.ret trivial

theorem indexTarget {args : List Node} (target : Bound) (h : ∀ n ∈ args, L.Binds n) :
    L.holds (∀ n ∈ args, n.WellShaped) (env.indexTarget target (args.map (Node.task env))) := by
  refine L.before (L.bindAll h) fun bs => ?_
  simp only
  split
  · exact L.refuse rfl
  · split
    · exact L.refuse rfl
    · exact L.ret trivial

theorem findMember (ty : Ty) (name : String) (isStatic : Bool) :
    L.holds True (ofExcept (env.findMember ty name isStatic)) := by
  refine L.lift fun e he => ?_
  unfold BindEnv.findMember at he
  split at he
  · cases he
  · cases he
    rfl

/-! ## Routes -/

/-- The segment has a slot, and the logic holds of the bindings of its arguments. -/
structure BindsSegment (segment : Segment Node) : Prop where
  kept : L.kept (.segment segment)
  args : ∀ n ∈ segment.args, L.Binds n

theorem keepSegment {segment : Segment Node} {x : Resolving Bound} (h : L.kept (.segment segment))
    (hresolves : Resolves env (.segment segment) x) (hx : L.holds (ShapedArgs segment) x) :
    L.holds (ShapedArgs segment) (BindMonad.keep segment.mark.slot x) := L.keep h hresolves hx

theorem bindInstance {segment : Segment Node} (target : Bound) (h : ∀ n ∈ segment.args, L.Binds n) :
    L.holds (ShapedArgs segment) (env.bindInstance target (segment.map (Node.task env))) := by
  cases segment with
  | member mark name generics =>
    exact L.after (L.findMember target.ty name false) fun _ => L.ret shapedArgs_member
  | method mark name generics args => exact L.callMethod _ _ _ _ h
  | indexer mark args => exact L.indexTarget _ h

theorem bindStatic {segment : Segment Node} (ty : Ty) (h : ∀ n ∈ segment.args, L.Binds n) :
    L.holds (ShapedArgs segment) (env.bindStatic ty (segment.map (Node.task env))) := by
  cases segment with
  | member mark name generics =>
    exact L.after (L.findMember ty name true) fun _ => L.ret shapedArgs_member
  | method mark name generics args => exact L.callMethod _ _ _ _ h
  | indexer mark args => exact L.refuse rfl

theorem bindLinks {segments : List (Segment Node)}
    (h : ∀ segment ∈ segments, L.BindsSegment segment) (target : Bound) :
    L.holds (∀ segment ∈ segments, ShapedArgs segment)
      (env.bindLinks target (segments.map (Segment.map (Node.task env)))) := by
  induction segments generalizing target with
  | nil => exact L.ret (by simp)
  | cons segment rest ih =>
    obtain ⟨hsegment, hrest⟩ := List.forall_mem_cons.mp h
    simp only [List.map_cons, BindEnv.bindLinks, Segment.mark_map]
    have hkeep := L.keepSegment hsegment.kept (.link target segment)
      (L.before (L.bindInstance target hsegment.args) L.bounded)
    exact L.congr (L.bind hkeep (ih hrest)) List.forall_mem_cons.symm

theorem bindTypeRoute {segments : List (Segment Node)}
    (h : ∀ segment ∈ segments, L.BindsSegment segment) (path : List String) :
    L.holds (∀ segment ∈ segments, ShapedArgs segment)
      (env.bindTypeRoute path (segments.map (Segment.map (Node.task env)))) := by
  induction segments generalizing path with
  | nil => exact L.refuse rfl
  | cons segment rest ih =>
    obtain ⟨-, hrest⟩ := List.forall_mem_cons.mp h
    cases segment with
    | method mark name generics args => exact L.refuse rfl
    | indexer mark args => exact L.refuse rfl
    | member mark name generics =>
      rw [List.forall_mem_cons, and_iff_right shapedArgs_member]
      simp only [List.map_cons, Segment.map, BindEnv.bindTypeRoute]
      split
      · exact ih hrest _
      · rename_i ty _
        cases rest with
        | nil => exact L.refuse rfl
        | cons next rest =>
          obtain ⟨hnext, hlinks⟩ := List.forall_mem_cons.mp hrest
          simp only [List.map_cons, Segment.mark_map]
          have hkeep := L.keepSegment hnext.kept (.static ty next) (L.bindStatic ty hnext.args)
          exact L.congr (L.bind hkeep (L.bindLinks hlinks)) List.forall_mem_cons.symm

theorem bindName {mark : Mark} {name : String} (h : L.kept (.segment (.member mark name []))) :
    L.holds True (env.bindName mark name) := by
  -- each of the three kinds of names is kept under the number of the segment
  have hkeep : ∀ b : Bound, Resolves env (.segment (.member mark name [])) (pure b) →
      L.holds True (do return some (← BindMonad.keep mark.slot (pure b))) := fun b hb =>
    L.congr (L.bind (L.keepSegment h hb (L.ret shapedArgs_member)) fun b => L.ret trivial)
      (iff_of_true ⟨shapedArgs_member, trivial⟩ trivial)
  unfold BindEnv.bindName
  split
  · rename_i i p hp
    exact hkeep _ (.parameter mark hp)
  · split
    · split
      · exact L.refuse rfl
      · exact L.ret trivial
    · rename_i base hbase
      split
      · rename_i hthis
        subst hthis
        exact hkeep _ (.receiver mark hbase)
      · split
        · rename_i found hfound
          obtain ⟨hfound, hinstance⟩ := Option.filter_eq_some_iff.mp hfound
          exact hkeep _ (.ownMember mark hbase hfound (by simpa using hinstance))
        · exact L.ret trivial

theorem bindRoute {segments : List (Segment Node)} (head : RouteHead)
    (h : ∀ segment ∈ segments, L.BindsSegment segment) :
    L.holds (∀ segment ∈ segments, ShapedArgs segment)
      (env.bindRoute head (segments.map (Segment.map (Node.task env)))) := by
  have htype := L.bindTypeRoute h []
  cases head with
  | type => exact htype
  | scope =>
    cases segments with
    | nil => exact htype
    | cons segment rest =>
      obtain ⟨hsegment, hrest⟩ := List.forall_mem_cons.mp h
      cases segment with
      | indexer mark args => exact htype
      | member mark name generics =>
        cases generics with
        | cons t ts => exact htype
        | nil =>
          refine L.after (L.bindName hsegment.kept) fun found => ?_
          cases found with
          | none => exact htype
          | some b =>
            rw [List.forall_mem_cons, and_iff_right shapedArgs_member]
            exact L.bindLinks hrest b
      | method mark name generics args =>
        simp only [List.map_cons, Segment.map, BindEnv.bindRoute]
        split
        · exact L.refuse rfl
        · rename_i base hbase
          have hkeep := L.keepSegment hsegment.kept (.ownCall mark name generics args hbase)
            (L.callMethod _ _ _ _ hsegment.args)
          exact L.congr (L.bind hkeep (L.bindLinks hrest)) List.forall_mem_cons.symm

/-! ## Trees -/

/-- The elements of a tree have slots, and all of its offsets may be reported. -/
def Covers (n : Node) : Prop :=
  ∀ e ∈ n.elements, L.kept e ∧ ∀ mark ∈ e.marks, L.reported mark.offset

theorem binds_of_body {n : Node} {W : Prop} (hn : L.Covers n) (hW : n.WellShaped ↔ W)
    (h : L.holds W (n.body env)) : L.Binds n := by
  obtain ⟨hkept, hmarks⟩ := hn _ n.elements_self
  refine ⟨hmarks _ (Element.mark_mem_marks _), ?_⟩
  rw [Node.task_eq_kept]
  exact L.keep hkept (.node n) (L.congr (L.before h L.bounded) hW.symm)

/-- **The logic holds of the binding of every node.** -/
theorem task {n : Node} (h : L.Covers n) : L.Binds n := by
  induction n using Node.induct with
  | constant mark v =>
    exact L.binds_of_body h (W := True) (by simp [Node.WellShaped, Node.Built]) (L.ret trivial)
  | operator mark op =>
    refine L.binds_of_body h (W := False) (by simp [Node.WellShaped, Node.Built]) (L.parse ?_ id)
    exact (h _ (Node.elements_self _)).2 mark List.mem_cons_self
  | unresolved mark raw => exact L.binds_of_body h Iff.rfl (L.refuse rfl)
  | cast mark typeMark target signs operand ih =>
    obtain ⟨⟨-, hmarks⟩, hoperand⟩ := Node.forall_elements_cast.mp h
    have hsigns :=
      List.forall_mem_map.mp (List.forall_mem_cons.mp (List.forall_mem_cons.mp hmarks).2).2
    exact L.binds_of_body h (by simp [Node.WellShaped, Node.Built])
      (L.bindCast target hsigns (ih hoperand))
  | route mark head segments ih =>
    have hsegments := (Node.forall_elements_route.mp h).2
    refine L.binds_of_body h Node.built_route (L.bindRoute head fun segment hs => ?_)
    obtain ⟨⟨hkept, -⟩, hargs⟩ := hsegments segment hs
    exact ⟨hkept, fun n hn => ih segment hs n hn (hargs n hn)⟩
  | block mark items ih =>
    have hitems := (Node.forall_elements_block.mp h).2
    exact L.binds_of_body h Node.built_block (L.foldItems fun n hn => ih n hn (hitems n hn))

end BindLogic

end Formula
