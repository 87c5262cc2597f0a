import Formula.Proofs.Comparison
import Formula.Proofs.Transparency

/-!
# The limit on the depth of bound trees

Binding checks the depth of the trees it makes on the way, not only of the last one. If blocks are
not simplified the checks on the way refuse nothing else: no step makes a tree that is less deep
than the trees it is made of, so a tree that is refused on the way stands for a result that is too
deep.

`Limited k μ x` says so of the outcomes `x L` under all limits `L`: there is an outcome that all
great limits have, and another limit has it too or is exceeded. How much a result needs is `μ`,
which is at least `k`; what a step is made of stands in the `k` of the step (`Limited.bind`).

* `Node.meaning_limited`: the meaning of a tree is limited by its depth.
* `Node.meaning_exact`: so a limit refuses the results that are deeper, and no others.
-/

namespace Formula

/-- The outcome of `x` without a limit: the one of all limits that are great enough. -/
def Unlimited {α : Type} (x : Nat → Except BuildError α) (y : Except BuildError α) : Prop :=
  ∃ N, ∀ L, N ≤ L → x L = y

/-- Under a limit `x` has its outcome without a limit, or exceeds the limit. A result is only
refused under limits below `μ`, which is at least `k`. -/
structure Limited {α : Type} (k : Nat) (μ : α → Nat) (x : Nat → Except BuildError α) : Prop where
  outcome : ∃ y, Unlimited x y ∧
    ∀ L, x L = y ∨ x L = .error (.limitExceeded .treeDepth L) ∧ ∀ a, y = .ok a → L < μ a
  le_measure {L : Nat} {a : α} : x L = .ok a → k ≤ μ a

namespace Limited

variable {α β : Type} {k : Nat} {μ : α → Nat} {ν : β → Nat} {x : Nat → Except BuildError α}

/-- An outcome that does not depend on the limit. -/
theorem const {z : Except BuildError α} (h : ∀ a, z = .ok a → k ≤ μ a) : Limited k μ fun _ => z :=
  ⟨⟨z, ⟨0, fun _ _ => rfl⟩, fun _ => .inl rfl⟩, fun ha => h _ ha⟩

theorem ret {a : α} (h : k ≤ μ a) : Limited k μ fun _ => (pure a : Except BuildError α) :=
  const fun _ ha => Except.ok.inj ha ▸ h

theorem fail (e : BuildError) : Limited k μ fun _ => (throw e : Except BuildError α) :=
  const nofun

/-- A step of its own, from what measures `k`. -/
theorem lift {z : Except BuildError α} (h : ∀ a, z = .ok a → k ≤ μ a) :
    Limited k μ fun _ => (ofExcept z : Except BuildError α) := by
  rw [Except.ofExcept_eq]
  exact const h

/-- Results may be said to need more than they do. -/
theorem raise (h : Limited k μ x) (k' : Nat) : Limited k' (fun a => max k' (μ a)) x := by
  obtain ⟨y, hy, hx⟩ := h.outcome
  refine ⟨⟨y, hy, fun L => (hx L).imp_right fun ⟨hL, hlt⟩ => ⟨hL, fun a ha => ?_⟩⟩,
    fun _ => Nat.le_max_left _ _⟩
  exact Nat.lt_of_lt_of_le (hlt a ha) (Nat.le_max_right _ _)

theorem zero (h : Limited k μ x) : Limited 0 μ x := ⟨h.outcome, fun _ => Nat.zero_le _⟩

/-- Two steps. What the first one results in measures at most what comes of it. -/
theorem bind {f : Nat → α → Except BuildError β} (h : Limited k μ x)
    (hf : ∀ a, Limited (μ a) ν fun L => f L a) : Limited k ν fun L => x L >>= f L := by
  have hrun {L : Nat} {a : α} (hL : x L = .ok a) : x L >>= f L = f L a := by
    rw [hL]
    rfl
  have hrefused {L : Nat} {e : BuildError} (hL : x L = .error e) : x L >>= f L = .error e := by
    rw [hL]
    rfl
  refine ⟨?_, fun {L c} hc => ?_⟩
  · obtain ⟨y, ⟨N, hN⟩, hx⟩ := h.outcome
    cases y with
    | error e =>
      refine ⟨.error e, ⟨N, fun L hL => hrefused (hN L hL)⟩, fun L => ?_⟩
      exact (hx L).imp hrefused fun hL => ⟨hrefused hL.1, nofun⟩
    | ok a =>
      obtain ⟨z, ⟨M, hM⟩, hz⟩ := (hf a).outcome
      refine ⟨z, ⟨max N M, fun L hL => ?_⟩, fun L => ?_⟩
      · exact (hrun (hN L (by omega))).trans (hM L (by omega))
      rcases hx L with hL | ⟨hL, hlt⟩
      · simp only [hrun hL]
        exact hz L
      · -- The first step is refused: what would come of its result is too deep as well.
        refine .inr ⟨hrefused hL, fun c hc => ?_⟩
        have hle : μ a ≤ ν c := (hf a).le_measure ((hM M (Nat.le_refl _)).trans hc)
        exact Nat.lt_of_lt_of_le (hlt a rfl) hle
  · obtain ⟨a, ha, hfa⟩ := Except.bind_ok hc
    exact Nat.le_trans (h.le_measure ha) ((hf a).le_measure hfa)

end Limited

namespace BindEnv

@[simp] theorem upTo_host (env : BindEnv) (L : Nat) : (env.upTo L).host = env.host := rfl

@[simp] theorem upTo_context (env : BindEnv) (L : Nat) : (env.upTo L).context = env.context := rfl

@[simp] theorem castBound_upTo (env : BindEnv) (L : Nat) (b : Bound) (target : TypeName) :
    (env.upTo L).castBound b target = env.castBound b target :=
  rfl

@[simp] theorem resolveGenerics_upTo (env : BindEnv) (L : Nat) (generics : List TypeName) :
    (env.upTo L).resolveGenerics generics = env.resolveGenerics generics :=
  Comparison.resolveGenerics_eq (upTo_host env L) generics

@[simp] theorem findMember_upTo (env : BindEnv) (L : Nat) (ty : Ty) (name : String)
    (isStatic : Bool) :
    (env.upTo L).findMember ty name isStatic = env.findMember ty name isStatic :=
  rfl

@[simp] theorem coerce?_upTo (env : BindEnv) (L : Nat) (bs : List Bound) (tys : List Ty) :
    (env.upTo L).coerce? bs tys = env.coerce? bs tys := by
  induction bs generalizing tys with
  | nil => cases tys <;> rfl
  | cons b bs ih =>
    cases tys with
    | nil => rfl
    | cons ty tys =>
      rw [coerce?_cons, coerce?_cons, ih]
      rfl

theorem bounded_ok {env : BindEnv} {b c : Bound}
    (h : env.bounded b = (.ok c : Except BuildError Bound)) : c = b ∧ b.depth ≤ env.maxDepth := by
  by_cases hd : env.maxDepth < b.depth
  · rw [env.bounded_of_lt hd] at h
    cases h
  · rw [env.bounded_of_le (Nat.le_of_not_lt hd)] at h
    cases h
    exact ⟨rfl, Nat.le_of_not_lt hd⟩

theorem bounded_limited (env : BindEnv) (b : Bound) :
    Limited b.depth Bound.depth fun L => (env.upTo L).bounded b := by
  refine ⟨⟨pure b, ⟨b.depth, fun L h => (env.upTo L).bounded_of_le h⟩, fun L => ?_⟩,
    fun {L c} hc => Nat.le_of_eq (congrArg Bound.depth (bounded_ok hc).1.symm)⟩
  by_cases h : L < b.depth
  · refine .inr ⟨(env.upTo L).bounded_of_lt h, fun c hc => ?_⟩
    cases hc
    exact h
  · exact .inl ((env.upTo L).bounded_of_le (Nat.le_of_not_lt h))

end BindEnv

/-! ## Operators and casts -/

theorem toKind_depth_le (kind : Kind) (b : Bound) : b.depth ≤ (toKind kind b).depth := by
  unfold toKind
  split
  · exact Nat.le_refl _
  · simp only [Bound.depth]
    omega

theorem negateIf_depth_le {negative : Bool} {b c : Bound} (h : negateIf negative b = .ok c) :
    b.depth ≤ c.depth := by
  unfold negateIf negateBound at h
  split at h
  · split at h
    · rename_i kind _
      cases h
      have := toKind_depth_le kind b
      simp only [Bound.depth]
      omega
    · cases h
  · cases h
    exact Nat.le_refl _

theorem binaryBound_depth_le {op : ArithOp} {l r c : Bound} (h : binaryBound op l r = .ok c) :
    max l.depth r.depth ≤ c.depth := by
  rw [binaryBound_eq] at h
  split at h
  · rename_i kind _
    cases h
    have := toKind_depth_le kind l
    have := toKind_depth_le kind r
    simp only [Bound.depth]
    omega
  · cases h

namespace BindEnv

variable {env : BindEnv}

theorem castBound_depth_le {b c : Bound} {target : TypeName} (h : env.castBound b target = .ok c) :
    b.depth ≤ c.depth := by
  unfold castBound at h
  split at h
  · cases h
  · split at h
    · cases h
      exact Nat.le_refl _
    · simp only at h
      split at h
      · cases h
        simp only [Bound.depth]
        omega
      · cases h

private theorem coerceOne?_depth_le {b c : Bound} {ty : Ty} (h : env.coerceOne? b ty = some c) :
    b.depth ≤ c.depth := by
  unfold coerceOne? at h
  split at h
  · cases h
    exact Nat.le_refl _
  · obtain ⟨conversion, -, rfl⟩ := Option.map_eq_some_iff.mp h
    simp only [Bound.depth]
    omega

theorem coerce?_depth_le {bs cs : List Bound} {tys : List Ty} (h : env.coerce? bs tys = some cs) :
    Bound.maxDepth bs ≤ Bound.maxDepth cs := by
  induction bs generalizing tys cs with
  | nil => exact Nat.zero_le _
  | cons b bs ih =>
    cases tys with
    | nil => cases h
    | cons ty tys =>
      rw [coerce?_cons] at h
      obtain ⟨c, hc, h⟩ := Option.bind_eq_some_iff.mp h
      obtain ⟨cs, hcs, rfl⟩ := Option.map_eq_some_iff.mp h
      have := coerceOne?_depth_le hc
      have := ih hcs
      simp only [Bound.maxDepth]
      omega

end BindEnv

/-! ## Blocks and casts -/

namespace BindEnv

/-- The binding of a tree is limited by the depth of the result. -/
def LimitedAt (env : BindEnv) (n : Node) : Prop :=
  Limited 0 Bound.depth fun L => n.meaning (env.upTo L)

variable {env : BindEnv}

/-- The operands so far are part of every later result. -/
theorem foldRest_limited : (ns : List Node) → (∀ n ∈ ns, env.LimitedAt n) → (acc : Bound) →
    Limited acc.depth Bound.depth fun L =>
      (env.upTo L).foldRest acc (ns.map (Node.task (env.upTo L)))
  | [], _, acc => .ret (Nat.le_refl _)
  | .operator mark (.arith op) :: right :: rest, ih, acc => by
    simp only [List.map_cons, foldRest, Node.task_node]
    split
    · exact .fail _
    · refine ((ih right (by simp)).raise acc.depth).bind fun r => ?_
      refine (Limited.lift fun _ => binaryBound_depth_le).bind fun b => ?_
      refine (env.bounded_limited b).bind fun b => ?_
      exact foldRest_limited rest (fun n hn => ih n (by simp [hn])) b
  | [.operator mark (.arith op)], _, _ | .operator mark .bar :: rest, _, _
  | .unresolved mark raw :: rest, _, _ | .constant .. :: rest, _, _ | .cast .. :: rest, _, _
  | .route .. :: rest, _, _ | .block .. :: rest, _, _ => by
    simp only [List.map_cons, List.map_nil, foldRest, Node.task_node]
    exact .fail _

theorem finish_upTo (hplain : env.simplify = false) (L : Nat) (b : Bound) :
    (env.upTo L).finish b = b := by
  rw [finish, upTo, hplain]
  rfl

theorem foldItems_limited (hplain : env.simplify = false) {ns : List Node}
    (ih : ∀ n ∈ ns, env.LimitedAt n) :
    Limited 0 Bound.depth fun L => (env.upTo L).foldItems (ns.map (Node.task (env.upTo L))) := by
  simp only [Node.foldItems_map, finish_upTo hplain]
  have hsub := (Node.splitSign_suffix ns).subset
  split
  · exact .fail _
  · rename_i negative first rest hsplit
    rw [hsplit] at hsub
    split
    · exact .fail _
    · refine (ih first (hsub (by simp))).bind fun b => ?_
      refine (Limited.lift fun _ => negateIf_depth_le).bind fun b => ?_
      refine (foldRest_limited rest (fun n hn => ih n (hsub (by simp [hn]))) b).bind fun b => ?_
      exact .ret (Nat.le_refl _)

theorem bindCast_limited (hplain : env.simplify = false) {operand : Node} (target : TypeName)
    (signs : List (Mark × Operator)) (ih : env.LimitedAt operand) :
    Limited 0 Bound.depth fun L =>
      (env.upTo L).bindCast target signs (operand.task (env.upTo L)) := by
  simp only [bindCast, castBound_upTo, finish_upTo hplain]
  refine (Limited.lift fun _ _ => Nat.zero_le 0).bind fun negative => ?_
  refine ih.bind fun b => ?_
  refine (Limited.lift fun _ => negateIf_depth_le).bind fun b => ?_
  refine (Limited.lift fun _ => castBound_depth_le).bind fun b => ?_
  exact .ret (Nat.le_refl _)

/-! ## Calls and indexers -/

theorem bindAll_limited {ns : List Node} (ih : ∀ n ∈ ns, env.LimitedAt n) :
    Limited 0 Bound.maxDepth fun L => bindAll (ns.map (Node.task (env.upTo L))) := by
  induction ns with
  | nil => exact .ret (Nat.zero_le _)
  | cons n ns ihn =>
    simp only [List.map_cons, bindAll]
    refine (ih n (by simp)).bind fun b => ?_
    refine ((ihn fun n hn => ih n (by simp [hn])).raise b.depth).bind fun bs => ?_
    exact .ret (Nat.le_refl _)

/-- The depth of the target of a call, if it has one. -/
def targetDepth (target : Option Bound) : Nat := target.elim 0 Bound.depth

private theorem call_depth_le (ty : Ty) (target : Option Bound) (f : Method) (args : List Bound) :
    max (targetDepth target) (Bound.maxDepth args) ≤ (Bound.call ty target f args).depth := by
  cases target with
  | none => simp [targetDepth, Bound.depth]
  | some target => simp [targetDepth, Bound.depth]

theorem callMethod_limited (target : Option Bound) (owner : Ty) (name : String)
    (generics : List TypeName) {args : List Node} (ih : ∀ n ∈ args, env.LimitedAt n) :
    Limited (targetDepth target) Bound.depth fun L =>
      (env.upTo L).callMethod target owner name generics (args.map (Node.task (env.upTo L))) := by
  simp only [callMethod, upTo_host, resolveGenerics_upTo, coerce?_upTo]
  refine (Limited.lift fun _ _ => Nat.le_refl (targetDepth target)).bind fun generics => ?_
  refine ((bindAll_limited ih).raise (targetDepth target)).bind fun args => ?_
  refine .const fun c hc => ?_
  split at hc
  · cases hc
  · split at hc
    · cases hc
    · split at hc
      · cases hc
      · rename_i hcoerce
        cases hc
        have := coerce?_depth_le hcoerce
        exact Nat.le_trans (by omega) (call_depth_le _ _ _ _)

theorem indexTarget_limited (target : Bound) {args : List Node} (ih : ∀ n ∈ args, env.LimitedAt n) :
    Limited target.depth Bound.depth fun L =>
      (env.upTo L).indexTarget target (args.map (Node.task (env.upTo L))) := by
  simp only [indexTarget, upTo_host, coerce?_upTo]
  refine ((bindAll_limited ih).raise target.depth).bind fun args => ?_
  refine .const fun c hc => ?_
  split at hc
  · cases hc
  · split at hc
    · cases hc
    · rename_i hcoerce
      cases hc
      have := coerce?_depth_le hcoerce
      simp only [Bound.depth]
      omega

/-! ## Routes -/

theorem bindInstance_limited (target : Bound) {segment : Segment Node}
    (ih : ∀ n ∈ segment.args, env.LimitedAt n) :
    Limited target.depth Bound.depth fun L =>
      (env.upTo L).bindInstance target (segment.map (Node.task (env.upTo L))) := by
  cases segment with
  | member mark name generics =>
    simp only [Segment.map, bindInstance, findMember_upTo]
    refine (Limited.lift fun _ _ => Nat.le_refl target.depth).bind fun found => ?_
    refine .ret ?_
    simp only [Bound.depth]
    omega
  | method mark name generics args => exact callMethod_limited (some target) _ name generics ih
  | indexer mark args => exact indexTarget_limited target ih

theorem bindStatic_limited (ty : Ty) {segment : Segment Node}
    (ih : ∀ n ∈ segment.args, env.LimitedAt n) :
    Limited 0 Bound.depth fun L =>
      (env.upTo L).bindStatic ty (segment.map (Node.task (env.upTo L))) := by
  cases segment with
  | member mark name generics =>
    simp only [Segment.map, bindStatic, findMember_upTo]
    refine (Limited.lift fun _ _ => Nat.zero_le 0).bind fun found => ?_
    exact .ret (Nat.zero_le _)
  | method mark name generics args => exact callMethod_limited none ty name generics ih
  | indexer mark args =>
    simp only [Segment.map, bindStatic, List.map_map, Function.comp_def, Node.task_node]
    exact .fail _

/-- What stands before the segments is part of every later result. -/
theorem bindLinks_limited {segments : List (Segment Node)}
    (ih : ∀ segment ∈ segments, ∀ n ∈ segment.args, env.LimitedAt n) (target : Bound) :
    Limited target.depth Bound.depth fun L =>
      (env.upTo L).bindLinks target (segments.map (Segment.map (Node.task (env.upTo L)))) := by
  induction segments generalizing target with
  | nil => exact .ret (Nat.le_refl _)
  | cons segment rest ihs =>
    obtain ⟨hfirst, hrest⟩ := List.forall_mem_cons.mp ih
    refine Limited.bind ((bindInstance_limited target hfirst).bind fun b => ?_) (ihs hrest)
    exact env.bounded_limited b

theorem bindTypeRoute_limited (path : List String) {segments : List (Segment Node)}
    (ih : ∀ segment ∈ segments, ∀ n ∈ segment.args, env.LimitedAt n) :
    Limited 0 Bound.depth fun L =>
      (env.upTo L).bindTypeRoute path (segments.map (Segment.map (Node.task (env.upTo L)))) := by
  induction segments generalizing path with
  | nil => exact .fail _
  | cons segment rest ihs =>
    obtain ⟨-, hrest⟩ := List.forall_mem_cons.mp ih
    cases segment with
    | member mark name generics =>
      simp only [List.map_cons, Segment.map, bindTypeRoute, upTo_host]
      cases (TypeName.ofPath? (path ++ [name]) generics).bind env.host.resolve with
      | none => exact ihs (path ++ [name]) hrest
      | some ty =>
        cases rest with
        | nil => exact .fail _
        | cons next rest =>
          obtain ⟨hnext, hlinks⟩ := List.forall_mem_cons.mp hrest
          exact (bindStatic_limited ty hnext).bind (bindLinks_limited hlinks)
    | method mark name generics args => exact .fail _
    | indexer mark args => exact .fail _

theorem bindRoute_limited (head : RouteHead) {segments : List (Segment Node)}
    (ih : ∀ segment ∈ segments, ∀ n ∈ segment.args, env.LimitedAt n) :
    Limited 0 Bound.depth fun L =>
      (env.upTo L).bindRoute head (segments.map (Segment.map (Node.task (env.upTo L)))) := by
  have htype := bindTypeRoute_limited [] ih
  cases head with
  | type => exact htype
  | scope =>
    cases segments with
    | nil => exact htype
    | cons segment rest =>
      obtain ⟨hfirst, hrest⟩ := List.forall_mem_cons.mp ih
      cases segment with
      | member mark name generics =>
        cases generics with
        | nil =>
          -- What a bare name stands for does not depend on the limit.
          refine (Limited.const (z := env.bindName mark name) (μ := fun b => targetDepth b)
            fun _ _ => Nat.zero_le _).bind fun b => ?_
          cases b with
          | none => exact htype
          | some b => exact bindLinks_limited hrest b
        | cons => exact htype
      | method mark name generics args =>
        simp only [List.map_cons, Segment.map, bindRoute, upTo_context]
        cases env.context.base with
        | none => exact .fail _
        | some base =>
          have hcall := callMethod_limited (some (.this base)) base name generics hfirst
          exact hcall.zero.bind (bindLinks_limited hrest)
      | indexer mark args => exact htype

end BindEnv

/-! ## Trees -/

namespace Node

variable {env : BindEnv}

/-- **The meaning of a tree is limited by its depth**, if blocks are not simplified. -/
theorem meaning_limited (hplain : env.simplify = false) (n : Node) : env.LimitedAt n := by
  have hkept {n : Node} {x : Nat → Except BuildError Bound} (h : Limited 0 Bound.depth x)
      (htask : ∀ L, n.meaning (env.upTo L) = (kept (env.upTo L) n (x L)).bind) :
      env.LimitedAt n := by
    unfold BindEnv.LimitedAt
    simp only [htask]
    exact h.bind env.bounded_limited
  induction n using Node.induct with
  | constant mark v => exact hkept (.ret (Nat.zero_le _)) fun L => by rw [meaning, task]
  | operator mark op => exact hkept (.fail _) fun L => by rw [meaning, task]
  | unresolved mark raw => exact hkept (.fail _) fun L => by rw [meaning, task]
  | cast mark typeMark target signs operand ih =>
    exact hkept (BindEnv.bindCast_limited hplain target signs ih) fun L => by rw [meaning, task]
  | route mark head segments ih =>
    exact hkept (BindEnv.bindRoute_limited head ih) fun L => by
      rw [meaning, task, taskSegments_eq_map]
  | block mark items ih =>
    exact hkept (BindEnv.foldItems_limited hplain ih) fun L => by rw [meaning, task, tasks_eq_map]

/-- Binding makes no tree that is too deep. -/
theorem meaning_depth_le {n : Node} {b : Bound} (h : n.meaning env = .ok b) :
    b.depth ≤ env.maxDepth := by
  obtain ⟨x, hx⟩ : ∃ x, n.meaning env = x >>= env.bounded := by
    cases n <;> exact ⟨_, by rw [meaning, task]; rfl⟩
  obtain ⟨a, -, ha⟩ := Except.bind_ok (hx.symm.trans h)
  obtain ⟨rfl, hdepth⟩ := BindEnv.bounded_ok ha
  exact hdepth

/-- **The limit on depth is exact** without simplification: a tree is bound as without a limit if
the result is not too deep, and refused if it is. -/
theorem meaning_exact (hplain : env.simplify = false) (n : Node) :
    ∃ y, Unlimited (fun L => n.meaning (env.upTo L)) y ∧
      (∀ b, y = .ok b → ∀ L, n.meaning (env.upTo L) =
        if b.depth ≤ L then .ok b else .error (.limitExceeded .treeDepth L)) ∧
      ∀ e, y = .error e → ∀ L, n.meaning (env.upTo L) = .error e ∨
        n.meaning (env.upTo L) = .error (.limitExceeded .treeDepth L) := by
  obtain ⟨y, hy, hall⟩ := (meaning_limited hplain n).outcome
  refine ⟨y, hy, ?_, ?_⟩
  · rintro b rfl L
    rcases hall L with hL | ⟨hL, hlt⟩
    · have hdepth : b.depth ≤ L := meaning_depth_le hL
      rw [hL, if_pos hdepth]
    · rw [hL, if_neg (Nat.not_le.mpr (hlt b rfl))]
  · rintro e rfl L
    exact (hall L).imp_right And.left

end Node

end Formula
