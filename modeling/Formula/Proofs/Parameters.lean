import Formula.Proofs.Agreement
import Formula.Proofs.Comparison
import Formula.Proofs.Passes
import Formula.Proofs.Prepared
import Formula.Proofs.Renaming
import Formula.Registry.Standard

/-!
# Only named parameters matter

Two contexts may declare other parameters, and in another order. A text does not tell them apart if
the names that its routes start with are names of parameters of the same types in both, or of none
(`Context.SameParameter`): it is prepared to the same tree, which is bound to the same tree up to
the positions of the parameters, and so has the same value where the named parameters have the same
values (`Binder.named_parameters`).
-/

namespace Formula

/-! ## Contexts -/

namespace Context

variable {c c' : Context} {name : String}

/-- The name is that of parameters of one type in both contexts, or of a parameter in neither. -/
def SameParameter (c c' : Context) (name : String) : Prop :=
  (c.parameter? name).map (·.2.ty) = (c'.parameter? name).map (·.2.ty)

instance : Decidable (c.SameParameter c' name) := inferInstanceAs (Decidable (_ = _))

/-- The value that a list of values has for a name. -/
def value? (c : Context) (values : List Value) (name : String) : Option Value :=
  (c.parameter? name).bind fun p => values[p.1]?

/-- The position in `c'` of the parameter with the name of the one at `i` in `c`. -/
def moved (c c' : Context) (i : Nat) : Nat :=
  ((c.parameters[i]?.bind fun p => c'.parameter? p.name).map (·.1)).getD i

/-- The position is that of a parameter whose name has `N`. -/
def NamedAt (c : Context) (N : String → Prop) (i : Nat) : Prop :=
  ∃ name p, N name ∧ c.parameter? name = some (i, p)

theorem parameter?_name {i : Nat} {p : Parameter} (h : c.parameter? name = some (i, p)) :
    p.name = name := by
  obtain ⟨⟨p', i'⟩, hfind, he⟩ := Option.map_eq_some_iff.mp h
  cases he
  simpa using List.find?_some hfind

theorem moved_eq {i j : Nat} {p q : Parameter} (h : c.parameter? name = some (i, p))
    (h' : c'.parameter? name = some (j, q)) : c.moved c' i = j := by
  unfold moved
  rw [parameter?_eq_some h, Option.bind_some, parameter?_name h, h']
  rfl

/-- Parameters of a name, found in both contexts or in neither. -/
theorem SameParameter.cases (h : c.SameParameter c' name) :
    c.parameter? name = none ∧ c'.parameter? name = none ∨
      ∃ i p j q, c.parameter? name = some (i, p) ∧ c'.parameter? name = some (j, q) ∧
        p.ty = q.ty := by
  unfold SameParameter at h
  rcases hp : c.parameter? name with _ | ⟨i, p⟩
  · rw [hp] at h
    exact .inl ⟨rfl, Option.map_eq_none_iff.mp h.symm⟩
  · rw [hp] at h
    obtain ⟨⟨j, q⟩, hq, hty⟩ := Option.map_eq_some_iff.mp h.symm
    exact .inr ⟨i, p, j, q, rfl, hq, hty.symm⟩

end Context

/-! ## Arranging -/

/-- The names that the routes of a text start with; none if the text cannot be read. -/
def Node.headsOf (limit : Nat) (source : String) : List String :=
  match Node.ofSource limit source with
  | .ok (root, _) => root.heads
  | .error _ => []

private theorem memberPath_head {segments : List (Segment Node)} {first : String}
    {more : List String} {generics : List TypeName}
    (h : memberPath segments = some (first :: more, generics)) :
    RouteHead.scope.name? segments = some first := by
  cases segments with
  | nil => cases h
  | cons segment rest =>
    cases segment with
    | member mark name own =>
      obtain ⟨path, -, he⟩ := Option.map_eq_some_iff.mp h
      cases he
      rfl
    | method | indexer => cases h

/-- Whether a block is a cast depends on no parameter but the one of its head. -/
theorem Scope.castTarget?_congr {c c' : Context} (host : Host) (limit : Nat)
    (hbase : c'.base = c.base) {n : Node} (hn : ∀ name ∈ n.heads, c.SameParameter c' name) :
    (Scope.mk host c' limit).castTarget? n = (Scope.mk host c limit).castTarget? n := by
  have hown : (Scope.mk host c' limit).isOwnMember = (Scope.mk host c limit).isOwnMember := by
    funext name
    unfold Scope.isOwnMember
    rw [hbase]
  unfold Scope.castTarget?
  split
  · rename_i mark routeMark segments
    cases hpath : memberPath segments with
    | none => rfl
    | some path =>
      obtain ⟨_ | ⟨first, more⟩, generics⟩ := path
      · rfl
      · have hroute := Node.forall_heads_block.mp hn _ (List.mem_singleton.mpr rfl)
        have hsame := (Node.forall_heads_route.mp hroute).1 first (memberPath_head hpath)
        have hsome : (c'.parameter? first).isSome = (c.parameter? first).isSome := by
          rw [← Option.isSome_map, ← hsame, Option.isSome_map]
        simp only [Option.bind_some, Scope.namedType?, hsome, hown]
  · rfl

namespace Binder

variable {b : Binder} {c c' : Context} {source : String}

theorem prepare_congr (hbase : c'.base = c.base)
    (hsame : ∀ name ∈ Node.headsOf b.limits.nesting source, c.SameParameter c' name) :
    b.prepare c' source = b.prepare c source := by
  have hfollows : (b.scope c).Follows True (fun _ => False) (c.SameParameter c') (b.scope c') :=
    ⟨Nat.le_refl _, fun h => h ⟨trivial, rfl⟩, fun hn => Scope.castTarget?_congr _ _ hbase hn⟩
  unfold Node.headsOf at hsame
  unfold prepare
  rcases hread : Node.ofSource b.limits.nesting source with e | ⟨root, nodes⟩
  · rfl
  · rw [hread] at hsame
    rcases hfollows.arrange hsame nodes with ⟨e, he, -⟩ | harrange
    · exact he.elim
    · split
      · rfl
      · show ((root.arrange (b.scope c')).run nodes >>= _) =
          ((root.arrange (b.scope c)).run nodes >>= _)
        rw [harrange]

/-- The heads of a prepared expression are heads of the text. -/
theorem prepare_heads {p : Prepared} (h : b.prepare c source = .ok p) :
    ∀ name ∈ p.root.heads, name ∈ Node.headsOf b.limits.nesting source := by
  obtain ⟨-, root, nodes, hread, harrange, -⟩ := prepare_ok h
  have hheads : Node.headsOf b.limits.nesting source = root.heads := by
    unfold Node.headsOf
    rw [hread]
  rw [hheads]
  have hroot : ∀ e ∈ root.elements, e.Mentions (· ∈ root.heads) fun _ => True := fun e he =>
    ⟨fun {name} hname => List.mem_filterMap.mpr ⟨e, he, hname⟩, trivial⟩
  have hkeeps := (b.scope c).keeps_mentions (· ∈ root.heads) (fun _ => True) trivial
  have hmentions := (hkeeps.arrange ⟨.inr (Node.ofSource_yields hread).2, hroot⟩ harrange).2
  exact Node.forall_heads_iff.mpr fun e he name hname => (hmentions e he).head hname

/-- Binding in two contexts, which agree on the names with `N`. -/
def parameterComparison (b : Binder) (hbase : c'.base = c.base) {N : String → Prop}
    (hN : ∀ name, N name → c.SameParameter c' name) :
    Comparison (Except BuildError) (Except BuildError) (b.env c) (b.env c') where
  alike := ⟨rfl, hbase⟩
  named := N
  rel p o := o = p.rename (c.moved c') ∧ ∀ n ∈ p.nodes, n.ReadsAt (c.NamedAt N)
  holds _ := SameOutcome
  holds_pure h := h
  holds_throw _ := rfl
  holds_bind h hf _ := h.bind hf
  holds_keep h _ := h
  holds_mono _ h := h
  bounded := by
    rintro p _ ⟨rfl, hp⟩
    by_cases hd : b.limits.treeDepth < p.depth
    · have hd' : (b.env c').maxDepth < (p.rename (c.moved c')).depth := by rwa [Bound.rename_depth]
      rw [BindEnv.bounded_of_lt _ hd, BindEnv.bounded_of_lt _ hd']
      exact rfl
    · have hd' : (p.rename (c.moved c')).depth ≤ (b.env c').maxDepth := by
        rw [Bound.rename_depth]
        exact Nat.le_of_not_lt hd
      rw [BindEnv.bounded_of_le _ (Nat.le_of_not_lt hd), BindEnv.bounded_of_le _ hd']
      exact ⟨rfl, hp⟩
  finish := by
    rintro p _ ⟨rfl, hp⟩
    have hfinish : ∀ context q, (b.env context).finish q = if b.simplify then q.simplify else q :=
      fun _ _ => rfl
    rw [hfinish, hfinish]
    split
    · exact ⟨(p.rename_simplify _).symm, (Bound.readsAt_simplifyRules _).forall_nodes trivial hp⟩
    · exact ⟨rfl, hp⟩
  ty_eq := by
    rintro p _ ⟨rfl, -⟩
    exact (p.rename_ty _).symm
  const v _ := ⟨rfl, List.forall_mem_singleton.mpr trivial⟩
  param := by
    intro name hname
    rcases (hN name hname).cases with ⟨hc, hc'⟩ | ⟨i, p, j, q, hc, hc', hty⟩
    · show Option.Rel _ (c.parameter? name) (c'.parameter? name)
      rw [hc, hc']
      exact .none
    · show Option.Rel _ (c.parameter? name) (c'.parameter? name)
      rw [hc, hc']
      refine .some ⟨?_, List.forall_mem_singleton.mpr ⟨name, p, hname, hc⟩⟩
      rw [Bound.rename, Context.moved_eq hc hc', hty]
  this _ := ⟨rfl, List.forall_mem_singleton.mpr trivial⟩
  staticMember _ _ := ⟨rfl, List.forall_mem_singleton.mpr trivial⟩
  member := by
    rintro p _ name f ⟨rfl, hp⟩ - -
    exact ⟨rfl, List.forall_mem_cons.mpr ⟨trivial, hp⟩⟩
  staticCall := by
    rintro ty name generics types params f ps os - - hargs -
    obtain ⟨rfl, hall⟩ := forall₂_map_and hargs
    refine ⟨?_, Bound.forall_nodes_staticCall.mpr ⟨trivial, hall⟩⟩
    rw [Bound.rename, Bound.renameAll_eq_map]
  call := by
    rintro p _ name generics types params f ps os ⟨rfl, hp⟩ - - hargs -
    obtain ⟨rfl, hall⟩ := forall₂_map_and hargs
    refine ⟨?_, Bound.forall_nodes_call.mpr ⟨trivial, hp, hall⟩⟩
    rw [Bound.rename, Bound.renameAll_eq_map]
  index := by
    rintro p _ types params f ps os ⟨rfl, hp⟩ - hargs -
    obtain ⟨rfl, hall⟩ := forall₂_map_and hargs
    refine ⟨?_, Bound.forall_nodes_index.mpr ⟨trivial, hp, hall⟩⟩
    rw [Bound.rename, Bound.renameAll_eq_map]
  implicit := by
    rintro p _ ty conversion ⟨rfl, hp⟩ - -
    exact ⟨rfl, Bound.forall_nodes_convert.mpr ⟨trivial, hp⟩⟩
  numeric := by
    rintro p _ source target ⟨rfl, hp⟩ -
    exact ⟨rfl, Bound.forall_nodes_convert.mpr ⟨trivial, hp⟩⟩
  negate := by
    rintro p _ kind ⟨rfl, hp⟩ - -
    exact ⟨rfl, Bound.forall_nodes_negate.mpr ⟨trivial, hp⟩⟩
  binary := by
    rintro op p _ q _ kind ⟨rfl, hp⟩ ⟨rfl, hq⟩ - - -
    exact ⟨rfl, Bound.forall_nodes_binary.mpr ⟨trivial, hp, hq⟩⟩

/-- A tree that reads named parameters only has the same value with them at their new positions. -/
theorem eval_moved {N : String → Prop} (hN : ∀ name, N name → c.SameParameter c' name)
    {root : Bound} (hreads : ∀ n ∈ root.nodes, n.ReadsAt (c.NamedAt N))
    {values values' : List Value} (hlength : c.parameters.length ≤ values.length)
    (hvalues : ∀ name, N name → c'.value? values' name = c.value? values name)
    (receiver : Option Value) :
    (root.rename (c.moved c')).eval ⟨receiver, values'⟩ = root.eval ⟨receiver, values⟩ := by
  have hreceiver : (Frame.mk receiver values').receiver = (Frame.mk receiver values).receiver := rfl
  refine Bound.eval_rename hreceiver fun n hn => (hreads n hn).mono ?_
  rintro i ⟨name, q, hname, hq⟩
  rcases (hN name hname).cases with ⟨hnone, -⟩ | ⟨_, _, j, q', hsome, hq', -⟩
  · rw [hq] at hnone
    cases hnone
  · have hi : i < values.length := by
      have hlt := (List.getElem?_eq_some_iff.mp (Context.parameter?_eq_some hq)).1
      omega
    have hvalue := hvalues name hname
    rw [Context.value?, Context.value?, hq, hq', Option.bind_some, Option.bind_some,
      List.getElem?_eq_getElem hi] at hvalue
    refine ⟨values[i], List.getElem?_eq_getElem hi, ?_⟩
    rwa [Context.moved_eq hq hq']

/-- **Only named parameters matter**: let two contexts with the same base type have parameters of
the same types, or none, for each name that a route of the text starts with. Then the text is
prepared alike, and bound alike up to the positions of the parameters; and if the parameters of
those names are given the same values, evaluation has the same outcome. -/
theorem named_parameters (hbase : c'.base = c.base)
    (hsame : ∀ name ∈ Node.headsOf b.limits.nesting source, c.SameParameter c' name) :
    b.prepare c' source = b.prepare c source ∧
      ∀ p, b.prepare c source = .ok p →
        (b.bind c' p).1 = ((b.bind c p).1.map fun e =>
          ⟨e.root.rename (c.moved c'), c'.parameters, c'.base⟩) ∧
        ∀ e e', (b.bind c p).1 = .ok e → (b.bind c' p).1 = .ok e' →
          ∀ receiver values values', c.parameters.length ≤ values.length →
            c'.parameters.length ≤ values'.length →
            (∀ name ∈ Node.headsOf b.limits.nesting source,
              c'.value? values' name = c.value? values name) →
            e'.eval receiver values' = e.eval receiver values := by
  refine ⟨prepare_congr hbase hsame, fun p hp => ?_⟩
  obtain ⟨hmeaning, hreads⟩ := SameOutcome.eq_map ((b.parameterComparison hbase hsame).task p.root
    (prepare_numbered hp).1.1 (prepare_heads hp))
  change p.root.meaning (b.env c') = (p.root.meaning (b.env c)).map _ at hmeaning
  rw [bind_eq_meaning hp, bind_eq_meaning hp, hmeaning]
  refine ⟨?_, fun e e' he he' receiver values values' hlength hlength' hvalues => ?_⟩
  · cases p.root.meaning (b.env c) with
    | error e => rfl
    | ok root => rfl
  · obtain ⟨root, hroot, rfl⟩ := Except.map_ok he
    rw [hroot] at he'
    cases he'
    unfold Compiled.eval
    rw [if_neg (Nat.not_lt.mpr hlength), if_neg (Nat.not_lt.mpr hlength')]
    exact eval_moved hsame (hreads root hroot) hlength hvalues receiver

/-- Two parameters in the other order, behind one that is not named. -/
theorem named_parameters_reordered :
    let b : Binder := ⟨(Registry.standard []).host, .standard, true⟩
    let c : Context := ⟨none, [⟨"x", .i32⟩, ⟨"y", .i64⟩]⟩
    let c' : Context := ⟨none, [⟨"u", .string⟩, ⟨"y", .i64⟩, ⟨"x", .i32⟩]⟩
    ∃ p e e', b.prepare c "x - y * 2" = .ok p ∧ b.prepare c' "x - y * 2" = .ok p ∧
      (b.bind c p).1 = .ok e ∧ (b.bind c' p).1 = .ok e' ∧
      e'.root = e.root.rename (c.moved c') ∧ c.moved c' 0 = 2 ∧
      e'.eval none [.str "", .ofInt .i64 5, .ofInt .i32 7] =
        e.eval none [.ofInt .i32 7, .ofInt .i64 5] := by
  intro b c c'
  have hheads : Node.headsOf b.limits.nesting "x - y * 2" = ["x", "y"] := by decide +kernel
  have hsame : ∀ name ∈ Node.headsOf b.limits.nesting "x - y * 2", c.SameParameter c' name := by
    rw [hheads]
    decide +kernel
  obtain ⟨p, hp, hbound⟩ : ∃ p, b.prepare c "x - y * 2" = .ok p ∧
      (b.bind c p).1.toOption.isSome = true :=
    Except.exists_ok (by decide +kernel)
  obtain ⟨e, he⟩ := Option.isSome_iff_exists.mp hbound
  have he := Except.toOption_eq_some he
  have hbase : c'.base = c.base := rfl
  obtain ⟨hprepare, hall⟩ := named_parameters hbase hsame
  obtain ⟨hbind, heval⟩ := hall p hp
  rw [he] at hbind
  refine ⟨p, e, _, hp, hprepare.trans hp, he, hbind, rfl, by decide +kernel, ?_⟩
  refine heval e _ he hbind none _ _ (by decide) (by decide) ?_
  rw [hheads]
  simp only [List.forall_mem_cons]
  exact ⟨rfl, rfl, nofun⟩

end Binder

end Formula
