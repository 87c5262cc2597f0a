import Formula.Binding
import Formula.Proofs.Numbering
import Formula.Proofs.Outcome
import Mathlib.Data.List.Forall2

/-!
# Comparing two ways to bind a tree

Binding is written once for every monad with slots. A `Comparison` relates the bindings of one tree
in two such monads, with limits, simplification and parameters of their own: it says how bound trees
compare (`rel`), how computations compare (`holds`), and that both are kept by each step of binding.

* `Comparison.task`: then the bindings of every tree compare whose routes start with names on which
  the parameters agree (`named`), and whose constants have `literal`.

The first argument of `holds` lists the slots that the computations may use. Steps that follow each
other use different slots, which is where the numbers of a tree have to be distinct.
-/

namespace Formula

/-- Environments with the same types, members and receiver. -/
structure BindEnv.Alike (env other : BindEnv) : Prop where
  host_eq : other.host = env.host
  base_eq : other.context.base = env.context.base

theorem BindEnv.Alike.refl (env : BindEnv) : env.Alike env := ⟨rfl, rfl⟩

/-- How the bindings of a tree in two monads compare. The rules for trees are those of the steps of
binding, each with what is known when the step is taken. -/
structure Comparison (m m' : Type → Type) [BindMonad m] [BindMonad m'] (env other : BindEnv) where
  alike : env.Alike other
  /-- The names that may stand for parameters. -/
  named : String → Prop := fun _ => True
  /-- The constants that may be written. -/
  literal : Value → Prop := fun _ => True
  rel : Bound → Bound → Prop
  holds : {α β : Type} → List Nat → (α → β → Prop) → m α → m' β → Prop
  holds_pure {α β : Type} {R : α → β → Prop} {a : α} {b : β} :
    R a b → holds [] R (pure a) (pure b)
  holds_throw {α β : Type} {R : α → β → Prop} (e : BuildError) : holds [] R (throw e) (throw e)
  holds_bind {α β γ δ : Type} {R : α → β → Prop} {R' : γ → δ → Prop} {S T : List Nat} {x : m α}
      {y : m' β} {f : α → m γ} {g : β → m' δ} :
    holds S R x y → (∀ a b, R a b → holds T R' (f a) (g b)) → (S ++ T).Nodup →
      holds (S ++ T) R' (x >>= f) (y >>= g)
  holds_keep {S : List Nat} {slot : Nat} {x : m Bound} {y : m' Bound} :
    holds S rel x y → slot ∉ S →
      holds (slot :: S) rel (BindMonad.keep slot x) (BindMonad.keep slot y)
  holds_mono {α β : Type} {R : α → β → Prop} {S T : List Nat} {x : m α} {y : m' β} :
    S ⊆ T → holds S R x y → holds T R x y
  bounded {p o : Bound} :
    rel p o → holds [] rel (env.bounded p) (other.bounded o)
  finish {p o : Bound} : rel p o → rel (env.finish p) (other.finish o)
  ty_eq {p o : Bound} : rel p o → p.ty = o.ty
  const (v : Value) : literal v → rel (.const (literalType v) v) (.const (literalType v) v)
  param {name : String} : named name →
    Option.Rel (fun p o => rel (.param p.2.ty p.1) (.param o.2.ty o.1))
      (env.context.parameter? name) (other.context.parameter? name)
  this {ty : Ty} : env.context.base = some ty → rel (.this ty) (.this ty)
  staticMember {ty : Ty} {name : String} {f : Member} :
    env.host.findMember ty name = some f → f.isStatic = true →
      rel (.member f.ty none f) (.member f.ty none f)
  member {p o : Bound} {name : String} {f : Member} :
    rel p o → env.host.findMember p.ty name = some f → f.isStatic = false →
      rel (.member f.ty (some p) f) (.member f.ty (some o) f)
  staticCall {ty : Ty} {name : String} {generics types params : List Ty} {f : Method}
      {ps os : List Bound} :
    env.host.findMethod ty name generics types = some (f, params) → f.isStatic = true →
      List.Forall₂ rel ps os → ps.map Bound.ty = params →
      rel (.call f.result none f ps) (.call f.result none f os)
  call {p o : Bound} {name : String} {generics types params : List Ty} {f : Method}
      {ps os : List Bound} :
    rel p o → env.host.findMethod p.ty name generics types = some (f, params) →
      f.isStatic = false → List.Forall₂ rel ps os → ps.map Bound.ty = params →
      rel (.call f.result (some p) f ps) (.call f.result (some o) f os)
  index {p o : Bound} {types params : List Ty} {f : Indexer} {ps os : List Bound} :
    rel p o → env.host.findIndexer p.ty types = some (f, params) → List.Forall₂ rel ps os →
      ps.map Bound.ty = params → rel (.index f.result p f ps) (.index f.result o f os)
  implicit {p o : Bound} {ty : Ty} {c : Conversion} :
    rel p o → p.ty ≠ ty → env.host.implicitConversion p.ty ty = some c →
      rel (.convert ty c p) (.convert ty c o)
  numeric {p o : Bound} {source target : Kind} :
    rel p o → p.ty = .numeric source →
      rel (.convert (.numeric target) (.numeric target) p)
        (.convert (.numeric target) (.numeric target) o)
  negate {p o : Bound} {kind : Kind} :
    rel p o → p.ty = .numeric kind → kind.isSigned = true →
      rel (.negate (.numeric kind) p) (.negate (.numeric kind) o)
  binary {op : ArithOp} {p o q r : Bound} {kind : Kind} :
    rel p o → rel q r → p.ty = .numeric kind → q.ty = .numeric kind → (op = .pow → kind = .f64) →
      rel (.binary (.numeric kind) op p q) (.binary (.numeric kind) op o r)

/-- Trees that are made of others one by one, which have `P`. -/
theorem forall₂_map_and {f : Bound → Bound} {P : Bound → Prop} {ps os : List Bound}
    (h : List.Forall₂ (fun p o => o = f p ∧ P p) ps os) : os = ps.map f ∧ ∀ p ∈ ps, P p := by
  induction h with
  | nil => exact ⟨rfl, by simp⟩
  | cons hp _ ih =>
    obtain ⟨rfl, hP⟩ := hp
    obtain ⟨rfl, hall⟩ := ih
    exact ⟨rfl, List.forall_mem_cons.mpr ⟨hP, hall⟩⟩

/-- A parameter that is found stands at its position. -/
theorem Context.parameter?_eq_some {context : Context} {name : String} {i : Nat} {p : Parameter}
    (h : context.parameter? name = some (i, p)) : context.parameters[i]? = some p := by
  obtain ⟨⟨p', i'⟩, hfind, he⟩ := Option.map_eq_some_iff.mp h
  cases he
  exact List.mem_zipIdx_iff_getElem?.mp (List.mem_of_find?_eq_some hfind)

/-- Parameters of one context. -/
theorem Context.parameter?_rel {context : Context} {name : String}
    {R : Nat × Parameter → Nat × Parameter → Prop}
    (h : ∀ i p, context.parameter? name = some (i, p) → R (i, p) (i, p)) :
    Option.Rel R (context.parameter? name) (context.parameter? name) := by
  cases hp : context.parameter? name with
  | none => exact .none
  | some found => exact .some (h found.1 found.2 hp)

theorem BindEnv.bounded_of_le {m : Type → Type} [BindMonad m] (env : BindEnv) {b : Bound}
    (h : b.depth ≤ env.maxDepth) : (env.bounded b : m Bound) = pure b := by
  unfold BindEnv.bounded
  rw [if_neg (Nat.not_lt.mpr h)]

theorem BindEnv.bounded_of_lt {m : Type → Type} [BindMonad m] (env : BindEnv) {b : Bound}
    (h : env.maxDepth < b.depth) :
    (env.bounded b : m Bound) = throw (.limitExceeded .treeDepth env.maxDepth) := by
  unfold BindEnv.bounded
  rw [if_pos h]

/-- The environment with another limit on depth. -/
def BindEnv.upTo (env : BindEnv) (limit : Nat) : BindEnv := { env with maxDepth := limit }

theorem Segment.mark_map {α β : Type} (f : α → β) (s : Segment α) : (s.map f).mark = s.mark := by
  cases s <;> rfl

namespace Node

variable {m : Type → Type} [BindMonad m]

@[simp] theorem task_node (env : BindEnv) (n : Node) : (task env n : Task m).node = n := by
  cases n <;> simp [task, kept]

theorem tasks_eq_map (env : BindEnv) (ns : List Node) :
    (tasks env ns : List (Task m)) = ns.map (task env) := by
  induction ns with
  | nil => simp [tasks]
  | cons n ns ih => simp [tasks, ih]

theorem taskSegments_eq_map (env : BindEnv) (segments : List (Segment Node)) :
    (taskSegments env segments : List (Segment (Task m))) =
      segments.map (Segment.map (task env)) := by
  induction segments with
  | nil => simp [taskSegments]
  | cons s rest ih => cases s <;> simp [taskSegments, Segment.map, tasks_eq_map, ih]

/-- The sign of the items of a block: whether it is a minus, and the items after it. -/
def splitSign : List Node → Bool × List Node
  | [] => (false, [])
  | n :: rest =>
    match n.operator? with
    | some op => if op.isSign then (op = .arith .sub, rest) else (false, n :: rest)
    | none => (false, n :: rest)

theorem splitSign_map (env : BindEnv) (ns : List Node) :
    BindEnv.splitSign (ns.map (task env) : List (Task m)) =
      ((splitSign ns).1, (splitSign ns).2.map (task env)) := by
  cases ns with
  | nil => rfl
  | cons n rest =>
    simp only [List.map_cons, BindEnv.splitSign, splitSign, task_node]
    cases n.operator? with
    | none => rfl
    | some op => cases hs : op.isSign <;> simp [hs]

/-- What follows the sign is the end of the items. -/
theorem splitSign_suffix (ns : List Node) : (splitSign ns).2 <:+ ns := by
  cases ns with
  | nil => exact List.suffix_refl _
  | cons n rest =>
    simp only [splitSign]
    split
    · split
      · exact List.suffix_cons n rest
      · exact List.suffix_refl _
    · exact List.suffix_refl _

/-- Folding a block, in terms of its nodes. -/
theorem foldItems_map (env : BindEnv) (ns : List Node) :
    (env.foldItems (ns.map (task env)) : m Bound) =
      match splitSign ns with
      | (_, []) => throw (.parse ((ns.getLast?.map offset).getD 0) .missingOperand)
      | (negative, first :: rest) =>
        match first.operator? with
        | some op => throw (.parse first.offset (.unexpectedOperator op))
        | none => do
          let b ← (first.task env).bind
          let b ← ofExcept (negateIf negative b)
          let b ← env.foldRest b (rest.map (task env))
          return env.finish b := by
  unfold BindEnv.foldItems
  rw [splitSign_map]
  rcases hs : splitSign ns with ⟨negative, _ | ⟨first, rest⟩⟩
  · simp only [List.map_nil, List.getLast?_map, Option.map_map, Function.comp_def, task_node]
  · cases hop : first.operator? with
    | none => simp only [List.map_cons, task_node, hop]
    | some op => simp only [List.map_cons, task_node, hop]

theorem slotsAll_suffix {ns ms : List Node} (h : ms <:+ ns) : slotsAll ms <:+ slotsAll ns := by
  obtain ⟨before, rfl⟩ := h
  rw [slotsAll_append]
  exact List.suffix_append _ _

end Node

/-! ## Operators -/

theorem Ty.kind?_eq_some {ty : Ty} {kind : Kind} : ty.kind? = some kind ↔ ty = .numeric kind := by
  cases ty <;> simp [Ty.kind?]

/-- Only kinds with negative numbers are negated in. -/
theorem negationKind?_signed {source kind : Kind} (h : negationKind? source = some kind) :
    kind.isSigned = true := by
  revert h
  cases source with
  | int k => cases k <;> simp [negationKind?] <;> rintro rfl <;> rfl
  | _ => simp [negationKind?]; rintro rfl; rfl

/-- The kind the operands of an operator are brought to. -/
def operandKind? (op : ArithOp) (l r : Ty) : Option Kind :=
  match op with
  | .pow => (l.promote? r).map fun _ => Kind.f64
  | _ => l.promote? r

theorem binaryBound_eq (op : ArithOp) (l r : Bound) :
    binaryBound op l r =
      match operandKind? op l.ty r.ty with
      | some kind => .ok (.binary (.numeric kind) op (toKind kind l) (toKind kind r))
      | none => .error (.typeMismatch op l.ty r.ty) := by
  cases op <;> rfl

theorem Ty.promote?_eq_some {l r : Ty} {kind : Kind} (h : l.promote? r = some kind) :
    ∃ a b, l = .numeric a ∧ r = .numeric b ∧ kind = a.promote b := by
  cases l <;> cases r <;> simp_all [Ty.promote?]

private theorem operandKind?_numeric {op : ArithOp} {l r : Ty} {kind : Kind}
    (h : operandKind? op l r = some kind) : ∃ a b, l = .numeric a ∧ r = .numeric b := by
  have hp : ∃ k, l.promote? r = some k := by
    cases op <;> simp_all [operandKind?]
  obtain ⟨k, hk⟩ := hp
  obtain ⟨a, b, hl, hr, -⟩ := Ty.promote?_eq_some hk
  exact ⟨a, b, hl, hr⟩

private theorem operandKind?_pow {op : ArithOp} {l r : Ty} {kind : Kind}
    (h : operandKind? op l r = some kind) (hop : op = .pow) : kind = .f64 := by
  subst hop
  simp only [operandKind?, Option.map_eq_some_iff] at h
  obtain ⟨-, -, rfl⟩ := h
  rfl

/-- An argument converted to its parameter. -/
def BindEnv.coerceOne? (env : BindEnv) (b : Bound) (ty : Ty) : Option Bound :=
  if b.ty = ty then some b
  else (env.host.implicitConversion b.ty ty).map fun c => .convert ty c b

theorem BindEnv.coerce?_cons (env : BindEnv) (b : Bound) (bs : List Bound) (ty : Ty)
    (tys : List Ty) :
    env.coerce? (b :: bs) (ty :: tys) =
      (env.coerceOne? b ty).bind fun c => (env.coerce? bs tys).map (c :: ·) := by
  rw [BindEnv.coerce?, ← BindEnv.coerceOne?]
  cases env.coerceOne? b ty <;> cases env.coerce? bs tys <;> rfl

namespace Comparison

variable {m m' : Type → Type} [BindMonad m] [BindMonad m'] {env other : BindEnv}
  (C : Comparison m m' env other)

/-! ## Computations -/

section Computations

variable {α β γ δ : Type} {R : α → β → Prop} {R' : γ → δ → Prop} {S T : List Nat}

theorem holds_fail (S : List Nat) (e : BuildError) :
    C.holds S R (throw e : m α) (throw e : m' β) :=
  C.holds_mono (List.nil_subset S) (C.holds_throw e)

theorem holds_return (S : List Nat) {a : α} {b : β} (h : R a b) :
    C.holds S R (pure a : m α) (pure b : m' β) :=
  C.holds_mono (List.nil_subset S) (C.holds_pure h)

theorem holds_ofExcept {x : Except BuildError α} {y : Except BuildError β}
    (h : SameOutcome R x y) : C.holds [] R (ofExcept x : m α) (ofExcept y : m' β) := by
  cases x <;> cases y <;> simp only [SameOutcome] at h
  · subst h
    exact C.holds_throw _
  · exact C.holds_pure h

/-- A step that uses no slots comes first. -/
theorem holds_first {x : m α} {y : m' β} {f : α → m γ} {g : β → m' δ} (h : C.holds [] R x y)
    (hf : ∀ a b, R a b → C.holds T R' (f a) (g b)) (hT : T.Nodup) :
    C.holds T R' (x >>= f) (y >>= g) :=
  C.holds_bind (S := []) h hf (by simpa using hT)

/-- A step that uses no slots comes last. -/
theorem holds_last {x : m α} {y : m' β} {f : α → m γ} {g : β → m' δ} (h : C.holds S R x y)
    (hf : ∀ a b, R a b → C.holds [] R' (f a) (g b)) (hS : S.Nodup) :
    C.holds S R' (x >>= f) (y >>= g) := by
  have hb := C.holds_bind (T := []) h hf (by simpa using hS)
  rwa [List.append_nil] at hb

end Computations

/-! ## Operators -/

section Operators

variable {p o q r : Bound}

theorem toKind_rel {source : Kind} (kind : Kind) (h : C.rel p o) (hp : p.ty = .numeric source) :
    C.rel (toKind kind p) (toKind kind o) ∧ (toKind kind p).ty = .numeric kind := by
  unfold toKind
  rw [← C.ty_eq h]
  split
  · rename_i hk
    exact ⟨h, hk⟩
  · exact ⟨C.numeric h hp, rfl⟩

theorem negateBound_same (h : C.rel p o) : SameOutcome C.rel (negateBound p) (negateBound o) := by
  unfold negateBound
  rw [← C.ty_eq h]
  split
  · rename_i kind hk
    obtain ⟨source, hs, hn⟩ := Option.bind_eq_some_iff.mp hk
    have ht := C.toKind_rel kind h (Ty.kind?_eq_some.mp hs)
    exact C.negate ht.1 ht.2 (negationKind?_signed hn)
  · rfl

theorem negateIf_same (negative : Bool) (h : C.rel p o) :
    SameOutcome C.rel (negateIf negative p) (negateIf negative o) := by
  unfold negateIf
  split
  · exact C.negateBound_same h
  · exact h

theorem binaryBound_same (op : ArithOp) (hl : C.rel p o) (hr : C.rel q r) :
    SameOutcome C.rel (binaryBound op p q) (binaryBound op o r) := by
  rw [binaryBound_eq, binaryBound_eq, ← C.ty_eq hl, ← C.ty_eq hr]
  split
  · rename_i kind hk
    obtain ⟨a, b, ha, hb⟩ := operandKind?_numeric hk
    have hp := C.toKind_rel kind hl ha
    have hq := C.toKind_rel kind hr hb
    exact C.binary hp.1 hq.1 hp.2 hq.2 (operandKind?_pow hk)
  · rfl

end Operators

/-! ## Blocks -/

/-- The bindings of a tree compare. -/
def Compared (n : Node) : Prop :=
  C.holds n.slots C.rel (n.task env).bind (n.task other).bind

theorem foldRest_holds : (ns : List Node) → (∀ n ∈ ns, C.Compared n) → (Node.slotsAll ns).Nodup →
    {p o : Bound} → C.rel p o →
    C.holds (Node.slotsAll ns) C.rel (env.foldRest p (ns.map (Node.task env)))
      (other.foldRest o (ns.map (Node.task other)))
  | [], _, _, _, _, h => by
    simp only [List.map_nil, BindEnv.foldRest]
    exact C.holds_return _ h
  | n :: rest, ih, hS, p, o, h => by
    rw [List.map_cons, List.map_cons, BindEnv.foldRest.eq_def, BindEnv.foldRest.eq_def]
    simp only [Node.task_node]
    cases n with
    | operator mark op =>
      cases op with
      | bar => exact C.holds_fail _ _
      | arith op =>
        cases rest with
        | nil => exact C.holds_fail _ _
        | cons right rest =>
          simp only [List.map_cons, Node.task_node]
          split
          · exact C.holds_fail _ _
          · simp only [Node.slotsAll] at hS ⊢
            have hS' := (List.nodup_append.mp hS).2.1
            have hrest := (List.nodup_append.mp hS').2.1
            refine C.holds_mono (List.subset_append_right _ _) ?_
            refine C.holds_bind (ih right (by simp)) (fun a b hab => ?_) hS'
            refine C.holds_first (C.holds_ofExcept (C.binaryBound_same op h hab))
              (fun a b hab => ?_) hrest
            refine C.holds_first (C.bounded hab) (fun a b hab => ?_) hrest
            exact foldRest_holds rest (fun n hn => ih n (by simp [hn])) hrest hab
    | _ => exact C.holds_fail _ _

theorem foldItems_holds {ns : List Node} (ih : ∀ n ∈ ns, C.Compared n)
    (hS : (Node.slotsAll ns).Nodup) :
    C.holds (Node.slotsAll ns) C.rel (env.foldItems (ns.map (Node.task env)))
      (other.foldItems (ns.map (Node.task other))) := by
  rw [Node.foldItems_map, Node.foldItems_map]
  have hsuffix := Node.splitSign_suffix ns
  split
  · exact C.holds_fail _ _
  · rename_i negative first rest hsplit
    rw [hsplit] at hsuffix
    have hsub := hsuffix.subset
    have hslots := Node.slotsAll_suffix hsuffix
    have hS' : (first.slots ++ Node.slotsAll rest).Nodup := hslots.sublist.nodup hS
    have hrest := (List.nodup_append.mp hS').2.1
    split
    · exact C.holds_fail _ _
    · refine C.holds_mono hslots.subset ?_
      refine C.holds_bind (ih first (hsub (by simp))) (fun a b hab => ?_) hS'
      refine C.holds_first (C.holds_ofExcept (C.negateIf_same negative hab)) (fun a b hab => ?_)
        hrest
      refine C.holds_last (C.foldRest_holds rest (fun n hn => ih n (hsub (by simp [hn]))) hrest hab)
        (fun a b hab => C.holds_pure (C.finish hab)) hrest

/-! ## Casts -/

theorem castBound_same {p o : Bound} (target : TypeName) (h : C.rel p o) :
    SameOutcome C.rel (env.castBound p target) (other.castBound o target) := by
  unfold BindEnv.castBound
  rw [C.alike.host_eq]
  cases env.host.resolve target with
  | none => rfl
  | some ty =>
    simp only [← C.ty_eq h]
    by_cases hty : p.ty = ty
    · simp only [hty, ↓reduceIte]
      exact h
    · simp only [hty, ↓reduceIte]
      split
      · rename_i c hc
        split at hc
        · rename_i source kind hs
          cases hc
          exact C.numeric h hs
        · exact C.implicit h hty hc
      · rfl

theorem bindCast_holds {operand : Node} (target : TypeName) (signs : List (Mark × Operator))
    (ih : C.Compared operand) (hS : operand.slots.Nodup) :
    C.holds operand.slots C.rel (env.bindCast target signs (operand.task env))
      (other.bindCast target signs (operand.task other)) := by
  unfold BindEnv.bindCast
  have hsign : SameOutcome (· = ·) (BindEnv.castSign signs) (BindEnv.castSign signs) := by
    cases BindEnv.castSign signs <;> rfl
  refine C.holds_first (C.holds_ofExcept hsign) (fun negative _ hn => ?_) hS
  subst hn
  refine C.holds_last ih (fun a b hab => ?_) hS
  refine C.holds_first (C.holds_ofExcept (C.negateIf_same negative hab)) (fun a b hab => ?_)
    List.nodup_nil
  refine C.holds_first (C.holds_ofExcept (C.castBound_same target hab)) (fun a b hab => ?_)
    List.nodup_nil
  exact C.holds_pure (C.finish hab)

/-! ## Calls and indexers -/

theorem bindAll_holds {ns : List Node} (ih : ∀ n ∈ ns, C.Compared n)
    (hS : (Node.slotsAll ns).Nodup) :
    C.holds (Node.slotsAll ns) (List.Forall₂ C.rel) (bindAll (ns.map (Node.task env)))
      (bindAll (ns.map (Node.task other))) := by
  induction ns with
  | nil => exact C.holds_return _ .nil
  | cons n ns ihn =>
    simp only [List.map_cons, bindAll]
    have hns := (List.nodup_append.mp hS).2.1
    refine C.holds_bind (ih n (by simp)) (fun a b hab => ?_) hS
    refine C.holds_last (ihn (fun n hn => ih n (by simp [hn])) hns) (fun as bs has => ?_) hns
    exact C.holds_pure (.cons hab has)

theorem types_eq {ps os : List Bound} (h : List.Forall₂ C.rel ps os) :
    ps.map Bound.ty = os.map Bound.ty := by
  induction h with
  | nil => rfl
  | cons hpo _ ih => simp [C.ty_eq hpo, ih]

theorem coerceOne_rel {p o : Bound} (h : C.rel p o) (ty : Ty) :
    (env.coerceOne? p ty = none ∧ other.coerceOne? o ty = none) ∨
      ∃ c d, env.coerceOne? p ty = some c ∧ other.coerceOne? o ty = some d ∧
        C.rel c d ∧ c.ty = ty := by
  unfold BindEnv.coerceOne?
  simp only [C.alike.host_eq, ← C.ty_eq h]
  by_cases hty : p.ty = ty
  · exact .inr ⟨p, o, by simp [hty], by simp [hty], h, hty⟩
  · cases hc : env.host.implicitConversion p.ty ty with
    | none => exact .inl ⟨by simp [hty], by simp [hty]⟩
    | some c =>
      exact .inr ⟨.convert ty c p, .convert ty c o, by simp [hty], by simp [hty],
        C.implicit h hty hc, rfl⟩

/-- Arguments that compare are both refused, or converted to arguments that compare and have the
types of the parameters. -/
theorem coerce?_rel {ps os : List Bound} (h : List.Forall₂ C.rel ps os) (params : List Ty) :
    (env.coerce? ps params = none ∧ other.coerce? os params = none) ∨
      ∃ cs ds, env.coerce? ps params = some cs ∧ other.coerce? os params = some ds ∧
        List.Forall₂ C.rel cs ds ∧ cs.map Bound.ty = params := by
  induction h generalizing params with
  | nil =>
    cases params with
    | nil => exact .inr ⟨[], [], rfl, rfl, .nil, rfl⟩
    | cons ty tys => exact .inl ⟨rfl, rfl⟩
  | @cons p o ps os hpo _ ih =>
    cases params with
    | nil => exact .inl ⟨rfl, rfl⟩
    | cons ty tys =>
      obtain ⟨hp, ho⟩ | ⟨c, d, hp, ho, hcd, hty⟩ := C.coerceOne_rel hpo ty
      · exact .inl ⟨by simp [BindEnv.coerce?_cons, hp], by simp [BindEnv.coerce?_cons, ho]⟩
      obtain ⟨hps, hos⟩ | ⟨cs, ds, hps, hos, hcds, htys⟩ := ih tys
      · exact .inl ⟨by simp [BindEnv.coerce?_cons, hps], by simp [BindEnv.coerce?_cons, hos]⟩
      · exact .inr ⟨c :: cs, d :: ds, by simp [BindEnv.coerce?_cons, hp, hps],
          by simp [BindEnv.coerce?_cons, ho, hos], .cons hcd hcds, by simp [hty, htys]⟩

theorem resolveGenerics_eq (hhost : other.host = env.host) (generics : List TypeName) :
    other.resolveGenerics generics = env.resolveGenerics generics := by
  induction generics with
  | nil => rfl
  | cons t ts ih => simp only [BindEnv.resolveGenerics, ih, hhost]

/-- The targets of a call of a method of the type `owner`: none for a static one. -/
def TargetRel (owner : Ty) : Option Bound → Option Bound → Prop
  | none, none => True
  | some p, some o => C.rel p o ∧ p.ty = owner
  | _, _ => False

theorem call_rel {p o : Option Bound} {owner : Ty} {name : String} {generics types params : List Ty}
    {f : Method} {ps os : List Bound} (h : C.TargetRel owner p o)
    (hf : env.host.findMethod owner name generics types = some (f, params))
    (hs : f.isStatic = p.isNone) (ha : List.Forall₂ C.rel ps os) (ht : ps.map Bound.ty = params) :
    C.rel (.call f.result p f ps) (.call f.result o f os) := by
  cases p <;> cases o <;> simp only [TargetRel] at h
  · exact C.staticCall hf (by simpa using hs) ha ht
  · obtain ⟨hpo, rfl⟩ := h
    exact C.call hpo hf (by simpa using hs) ha ht

theorem TargetRel.isNone_eq {p o : Option Bound} {owner : Ty} (h : C.TargetRel owner p o) :
    p.isNone = o.isNone := by
  cases p <;> cases o <;> simp_all [TargetRel]

theorem callMethod_holds {p o : Option Bound} {owner : Ty} {args : List Node} (name : String)
    (generics : List TypeName) (h : C.TargetRel owner p o) (ih : ∀ n ∈ args, C.Compared n)
    (hS : (Node.slotsAll args).Nodup) :
    C.holds (Node.slotsAll args) C.rel
      (env.callMethod p owner name generics (args.map (Node.task env)))
      (other.callMethod o owner name generics (args.map (Node.task other))) := by
  unfold BindEnv.callMethod
  rw [resolveGenerics_eq C.alike.host_eq]
  have hg : SameOutcome (· = ·) (env.resolveGenerics generics) (env.resolveGenerics generics) := by
    cases env.resolveGenerics generics <;> rfl
  refine C.holds_first (C.holds_ofExcept hg) (fun generics _ heq => ?_) hS
  subst heq
  refine C.holds_last (C.bindAll_holds ih hS) (fun ps os hpos => ?_) hS
  simp only [← C.types_eq hpos, C.alike.host_eq]
  cases hf : env.host.findMethod owner name generics (ps.map Bound.ty) with
  | none => exact C.holds_throw _
  | some found =>
    obtain ⟨f, params⟩ := found
    simp only [← TargetRel.isNone_eq C h]
    by_cases hs : f.isStatic = p.isNone
    · simp only [hs, ne_eq, not_true_eq_false, ↓reduceIte]
      obtain ⟨hp, ho⟩ | ⟨cs, ds, hp, ho, hcd, hty⟩ := C.coerce?_rel hpos params
      · simp only [hp, ho]
        exact C.holds_throw _
      · simp only [hp, ho]
        exact C.holds_pure (C.call_rel h hf hs hcd hty)
    · simp only [hs, ne_eq, not_false_eq_true, ↓reduceIte]
      exact C.holds_throw _

theorem indexTarget_holds {p o : Bound} {args : List Node} (h : C.rel p o)
    (ih : ∀ n ∈ args, C.Compared n) (hS : (Node.slotsAll args).Nodup) :
    C.holds (Node.slotsAll args) C.rel (env.indexTarget p (args.map (Node.task env)))
      (other.indexTarget o (args.map (Node.task other))) := by
  unfold BindEnv.indexTarget
  refine C.holds_last (C.bindAll_holds ih hS) (fun ps os hpos => ?_) hS
  simp only [← C.types_eq hpos, ← C.ty_eq h, C.alike.host_eq]
  cases hf : env.host.findIndexer p.ty (ps.map Bound.ty) with
  | none => exact C.holds_throw _
  | some found =>
    obtain ⟨f, params⟩ := found
    obtain ⟨hp, ho⟩ | ⟨cs, ds, hp, ho, hcd, hty⟩ := C.coerce?_rel hpos params
    · simp only [hp, ho]
      exact C.holds_throw _
    · simp only [hp, ho]
      exact C.holds_pure (C.index h hf hcd hty)

/-! ## Routes -/

theorem findMember_same (hhost : other.host = env.host) (ty : Ty) (name : String)
    (isStatic : Bool) :
    SameOutcome (fun f g => f = g ∧ env.host.findMember ty name = some f ∧ f.isStatic = isStatic)
      (env.findMember ty name isStatic) (other.findMember ty name isStatic) := by
  unfold BindEnv.findMember
  rw [hhost]
  split
  · rename_i f hf
    obtain ⟨hf, hs⟩ := Option.filter_eq_some_iff.mp hf
    exact ⟨rfl, hf, by simpa using hs⟩
  · rfl

theorem bindInstance_holds {p o : Bound} {segment : Segment Node} (h : C.rel p o)
    (ih : ∀ n ∈ segment.args, C.Compared n) (hS : (Node.slotsAll segment.args).Nodup) :
    C.holds (Node.slotsAll segment.args) C.rel
      (env.bindInstance p (segment.map (Node.task env)))
      (other.bindInstance o (segment.map (Node.task other))) := by
  cases segment with
  | member mark name generics =>
    simp only [Segment.map, BindEnv.bindInstance, ← C.ty_eq h]
    refine C.holds_first (C.holds_ofExcept (findMember_same C.alike.host_eq p.ty name false))
      (fun f g hfg => ?_) hS
    obtain ⟨rfl, hf, hs⟩ := hfg
    exact C.holds_return _ (C.member h hf hs)
  | method mark name generics args =>
    simp only [Segment.map, BindEnv.bindInstance, ← C.ty_eq h]
    exact C.callMethod_holds name generics ⟨h, rfl⟩ ih hS
  | indexer mark args => exact C.indexTarget_holds h ih hS

theorem bindStatic_holds {segment : Segment Node} (ty : Ty)
    (ih : ∀ n ∈ segment.args, C.Compared n) (hS : (Node.slotsAll segment.args).Nodup) :
    C.holds (Node.slotsAll segment.args) C.rel (env.bindStatic ty (segment.map (Node.task env)))
      (other.bindStatic ty (segment.map (Node.task other))) := by
  cases segment with
  | member mark name generics =>
    simp only [Segment.map, BindEnv.bindStatic]
    refine C.holds_first (C.holds_ofExcept (findMember_same C.alike.host_eq ty name true))
      (fun f g hfg => ?_) hS
    obtain ⟨rfl, hf, hs⟩ := hfg
    exact C.holds_return _ (C.staticMember hf hs)
  | method mark name generics args => exact C.callMethod_holds name generics trivial ih hS
  | indexer mark args =>
    simp only [Segment.map, BindEnv.bindStatic, List.map_map, Function.comp_def, Node.task_node]
    exact C.holds_fail _ _

/-- The arguments of all segments compare. -/
def ComparedArgs (segments : List (Segment Node)) : Prop :=
  ∀ segment ∈ segments, ∀ n ∈ segment.args, C.Compared n

theorem ComparedArgs.tail {segment : Segment Node} {rest : List (Segment Node)}
    (h : C.ComparedArgs (segment :: rest)) : C.ComparedArgs rest :=
  fun s hs => h s (List.mem_cons_of_mem _ hs)

theorem bindLinks_holds {segments : List (Segment Node)} {p o : Bound} (h : C.rel p o)
    (ih : C.ComparedArgs segments) (hS : (Node.slotsOfSegments segments).Nodup) :
    C.holds (Node.slotsOfSegments segments) C.rel
      (env.bindLinks p (segments.map (Segment.map (Node.task env))))
      (other.bindLinks o (segments.map (Segment.map (Node.task other)))) := by
  induction segments generalizing p o with
  | nil => exact C.holds_return _ h
  | cons segment rest ihs =>
    simp only [List.map_cons, BindEnv.bindLinks, Segment.mark_map]
    rw [Node.slotsOfSegments_cons, ← List.cons_append] at hS ⊢
    obtain ⟨hfirst, hrest, -⟩ := List.nodup_append.mp hS
    obtain ⟨hmark, hargs⟩ := List.nodup_cons.mp hfirst
    refine C.holds_bind (C.holds_keep ?_ hmark) (fun a b hab => ?_) hS
    · exact C.holds_last (C.bindInstance_holds h (ih segment (by simp)) hargs)
        (fun a b hab => C.bounded hab) hargs
    · exact ihs hab (ComparedArgs.tail C ih) hrest

/-- The first segment of a route to a static member names a type or a part of one, so its slot is
not used. -/
theorem bindTypeRoute_holds {segments : List (Segment Node)} (path : List String)
    (ih : C.ComparedArgs segments) (hS : (Node.slotsOfSegments segments).Nodup) :
    C.holds (Node.slotsOfSegments segments.tail) C.rel
      (env.bindTypeRoute path (segments.map (Segment.map (Node.task env))))
      (other.bindTypeRoute path (segments.map (Segment.map (Node.task other)))) := by
  induction segments generalizing path with
  | nil => exact C.holds_fail _ _
  | cons segment rest ihs =>
    rw [Node.slotsOfSegments_cons] at hS
    have hrest := (List.nodup_append.mp (List.nodup_cons.mp hS).2).2.1
    have ihr := ComparedArgs.tail C ih
    cases segment with
    | member mark name generics =>
      simp only [List.map_cons, Segment.map, BindEnv.bindTypeRoute, C.alike.host_eq, List.tail_cons]
      cases (TypeName.ofPath? (path ++ [name]) generics).bind env.host.resolve with
      | none =>
        exact C.holds_mono (Node.slotsOfSegments_tail_subset rest)
          (ihs (path ++ [name]) ihr hrest)
      | some ty =>
        cases rest with
        | nil => exact C.holds_fail _ _
        | cons next rest =>
          simp only [List.map_cons, Segment.mark_map]
          rw [Node.slotsOfSegments_cons, ← List.cons_append] at hrest ⊢
          obtain ⟨hfirst, hlinks, -⟩ := List.nodup_append.mp hrest
          obtain ⟨hmark, hargs⟩ := List.nodup_cons.mp hfirst
          refine C.holds_bind
            (C.holds_keep (C.bindStatic_holds ty (ihr next (by simp)) hargs) hmark)
            (fun a b hab => ?_) hrest
          exact C.bindLinks_holds hab (ComparedArgs.tail C ihr) hlinks
    | method mark name generics args => exact C.holds_fail _ _
    | indexer mark args => exact C.holds_fail _ _

/-- What a bare name may be bound to: nothing, or trees that compare. -/
def OptionRel : Option Bound → Option Bound → Prop
  | none, none => True
  | some p, some o => C.rel p o
  | _, _ => False

theorem keepLeaf_holds {p o : Bound} (mark : Mark) (h : C.rel p o) :
    C.holds [mark.slot] C.OptionRel
      (do return some (← BindMonad.keep mark.slot (pure p)))
      (do return some (← BindMonad.keep mark.slot (pure o))) :=
  C.holds_last (C.holds_keep (C.holds_pure h) List.not_mem_nil)
    (fun _ _ hab => C.holds_pure hab) (by simp)

theorem bindName_holds (mark : Mark) {name : String} (hname : C.named name) :
    C.holds [mark.slot] C.OptionRel (env.bindName mark name) (other.bindName mark name) := by
  unfold BindEnv.bindName
  simp only [C.alike.host_eq, C.alike.base_eq]
  have hparam := C.param hname
  generalize env.context.parameter? name = p, other.context.parameter? name = o at hparam ⊢
  cases hparam with
  | some hp => exact C.keepLeaf_holds mark hp
  | none =>
    cases hb : env.context.base with
    | none =>
      by_cases hn : name = "this"
      · simp only [hn, ↓reduceIte]
        exact C.holds_fail _ _
      · simp only [hn, ↓reduceIte]
        exact C.holds_return _ trivial
    | some base =>
      by_cases hn : name = "this"
      · simp only [hn, ↓reduceIte]
        exact C.keepLeaf_holds mark (C.this hb)
      · simp only [hn, ↓reduceIte]
        split
        · rename_i f hf
          obtain ⟨hf, hs⟩ := Option.filter_eq_some_iff.mp hf
          exact C.keepLeaf_holds mark (C.member (C.this hb) hf (by simpa using hs))
        · exact C.holds_return _ trivial

theorem bindRoute_holds {segments : List (Segment Node)} {head : RouteHead}
    (hhead : ∀ name, head.name? segments = some name → C.named name)
    (ih : C.ComparedArgs segments) (hS : (Node.slotsOfSegments segments).Nodup) :
    C.holds (Node.slotsOfSegments segments) C.rel
      (env.bindRoute head (segments.map (Segment.map (Node.task env))))
      (other.bindRoute head (segments.map (Segment.map (Node.task other)))) := by
  have htype : C.holds (Node.slotsOfSegments segments) C.rel
      (env.bindTypeRoute [] (segments.map (Segment.map (Node.task env))))
      (other.bindTypeRoute [] (segments.map (Segment.map (Node.task other)))) :=
    C.holds_mono (Node.slotsOfSegments_tail_subset segments) (C.bindTypeRoute_holds [] ih hS)
  cases head with
  | type => exact htype
  | scope =>
    cases segments with
    | nil => exact htype
    | cons segment rest =>
      have hslots := Node.slotsOfSegments_cons segment rest
      rw [hslots] at hS
      have hrest := (List.nodup_append.mp (List.nodup_cons.mp hS).2).2.1
      cases segment with
      | member mark name generics =>
        cases generics with
        | nil =>
          simp only [List.map_cons, Segment.map, BindEnv.bindRoute]
          rw [hslots]
          refine C.holds_bind (S := [mark.slot]) (C.bindName_holds mark (hhead name rfl))
            (fun a b hab => ?_) hS
          cases a <;> cases b <;> simp only [OptionRel] at hab
          · exact C.bindTypeRoute_holds [] ih (by rwa [hslots])
          · exact C.bindLinks_holds hab (ComparedArgs.tail C ih) hrest
        | cons => exact htype
      | method mark name generics args =>
        simp only [List.map_cons, Segment.map, BindEnv.bindRoute, C.alike.base_eq]
        cases hb : env.context.base with
        | none => exact C.holds_fail _ _
        | some base =>
          rw [hslots, ← List.cons_append]
          rw [← List.cons_append] at hS
          obtain ⟨hmark, hargs⟩ := List.nodup_cons.mp (List.nodup_append.mp hS).1
          refine C.holds_bind (C.holds_keep ?_ hmark) (fun a b hab => ?_) hS
          · exact C.callMethod_holds name generics ⟨C.this hb, rfl⟩
              (ih (.method mark name generics args) (by simp)) hargs
          · exact C.bindLinks_holds hab (ComparedArgs.tail C ih) hrest
      | indexer mark args => exact htype

/-! ## Trees -/

theorem kept_holds (n : Node) {S : List Nat} {x : m Bound} {y : m' Bound} (hS : n.slots.Nodup)
    (hn : n.slots = n.mark.slot :: S) (h : C.holds S C.rel x y) :
    C.holds n.slots C.rel (Node.kept env n x).bind (Node.kept other n y).bind := by
  rw [hn] at hS ⊢
  obtain ⟨hmark, hS⟩ := List.nodup_cons.mp hS
  exact C.holds_keep (C.holds_last h (fun a b hab => C.bounded hab) hS) hmark

/-- **The bindings of a tree compare**, if its nodes have distinct numbers. -/
theorem task (n : Node) (hS : n.slots.Nodup)
    (hnames : ∀ name ∈ n.heads, C.named name := by exact fun _ _ => trivial)
    (hliterals : n.LiteralsIn C.literal := by exact fun _ _ _ _ => trivial) : C.Compared n := by
  induction n using Node.induct with
  | constant mark v =>
    unfold Compared
    simp only [Node.task]
    exact C.kept_holds _ hS rfl
      (C.holds_pure (C.const v (hliterals _ (Node.elements_self _) v rfl)))
  | operator mark op =>
    unfold Compared
    simp only [Node.task]
    exact C.kept_holds _ hS rfl (C.holds_throw _)
  | unresolved mark raw =>
    unfold Compared
    simp only [Node.task]
    exact C.kept_holds _ hS rfl (C.holds_throw _)
  | cast mark typeMark target signs operand ih =>
    have hoperand : operand.slots.Nodup := by
      simp only [Node.slots, List.nodup_cons, List.nodup_append] at hS
      exact hS.2.2.2.1
    unfold Compared
    simp only [Node.task]
    have hcompared := ih hoperand (Node.forall_heads_cast.mp hnames)
      (Node.forall_elements_cast.mp hliterals).2
    refine C.kept_holds _ hS rfl
      (C.holds_mono ?_ (C.bindCast_holds target signs hcompared hoperand))
    exact fun i hi => List.mem_cons_of_mem _ (List.mem_append_right _ hi)
  | route mark head segments ih =>
    have hsegments := (List.nodup_cons.mp hS).2
    obtain ⟨hhead, hnames⟩ := Node.forall_heads_route.mp hnames
    have hargs : C.ComparedArgs segments := fun segment hs n hn =>
      ih segment hs n hn ((Node.slots_sublist_of_arg hs hn).nodup hsegments)
        (hnames segment hs n hn) (((Node.forall_elements_route.mp hliterals).2 segment hs).2 n hn)
    unfold Compared
    simp only [Node.task, Node.taskSegments_eq_map]
    exact C.kept_holds _ hS rfl (C.bindRoute_holds hhead hargs hsegments)
  | block mark items ih =>
    have hitems := (List.nodup_cons.mp hS).2
    have hall : ∀ n ∈ items, C.Compared n := fun n hn =>
      ih n hn ((Node.slots_sublist hn).nodup hitems) (Node.forall_heads_block.mp hnames n hn)
        ((Node.forall_elements_block.mp hliterals).2 n hn)
    unfold Compared
    simp only [Node.task, Node.tasks_eq_map]
    exact C.kept_holds _ hS rfl (C.foldItems_holds hall hitems)

end Comparison

end Formula
