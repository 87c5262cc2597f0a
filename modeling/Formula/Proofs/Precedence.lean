import Formula.Proofs.Chain
import Formula.Proofs.Finishing
import Formula.Proofs.Transparency
import Formula.Registry.Standard

/-!
# Precedence

Arranging has no precedence of its own: it makes blocks of the runs that `productRuns` finds, and
binding folds every block from left to right. Both together bind a chain of operands as it is meant
to be bound (`Chain.resolve_precedence`), unless a limit is exceeded:

* the runs of a chain are its terms (`Chain.productRuns_items`);
* each term is finished to a node that stands for it (`Chain.finishProducts_chain`);
* a block of such nodes is bound term by term (`Chain.Grouped.meaning`).
-/

namespace Formula

/-! ## Outcomes up to limits -/

/-- The outcome `x` is `y`, unless a limit was exceeded. -/
def UpToLimits {α : Type} (x y : Except BuildError α) : Prop :=
  (∃ limit n, x = .error (.limitExceeded limit n)) ∨ x = y

namespace UpToLimits

variable {α β : Type} {x y z : Except BuildError α}

theorem refl (x : Except BuildError α) : UpToLimits x x := .inr rfl

theorem trans (h : UpToLimits x y) (h' : UpToLimits y z) : UpToLimits x z := by
  rcases h with h | rfl
  · exact .inl h
  · exact h'

theorem bind {f g : α → Except BuildError β} (h : UpToLimits x y)
    (hf : ∀ a, UpToLimits (f a) (g a)) : UpToLimits (x >>= f) (y >>= g) := by
  rcases h with ⟨limit, n, rfl⟩ | rfl
  · exact .inl ⟨limit, n, rfl⟩
  · cases x with
    | error e => exact .inr rfl
    | ok a => exact hf a

theorem bounded (env : BindEnv) (b : Bound) : UpToLimits (env.bounded b) (.ok b) := by
  by_cases hd : env.maxDepth < b.depth
  · exact .inl ⟨.treeDepth, env.maxDepth, env.bounded_of_lt hd⟩
  · exact .inr (env.bounded_of_le (Nat.le_of_not_lt hd))

theorem andBounded {x y : Except BuildError Bound} (h : UpToLimits x y) (env : BindEnv) :
    UpToLimits (do env.bounded (← x)) y := by
  rw [← bind_pure y]
  exact h.bind (bounded env)

end UpToLimits

/-! ## Binding a chain -/

namespace Chain

/-- The node of an operator. -/
def operatorNode (op : Mark × ArithOp) : Node := .operator op.1 (.arith op.2)

/-- The items of a block that holds a chain. -/
def nodes (c : Chain Node) : List Node := c.items operatorNode id

/-- The sign in front of a chain: whether it is a minus. -/
def signNode (sign : Mark × Bool) : Node :=
  operatorNode (sign.1, if sign.2 then .sub else .add)

/-- The items of a block that holds a chain, with a sign in front of it if there is one. -/
def signedNodes (sign : Option (Mark × Bool)) (c : Chain Node) : List Node :=
  sign.toList.map signNode ++ c.nodes

/-- Whether the sign is a minus. -/
def isNegative (sign : Option (Mark × Bool)) : Bool := sign.any (·.2)

theorem fold_upToLimits {α β : Type} {f : α → Except BuildError Bound}
    {g : β → Except BuildError Bound} {c : Chain α} {d : Chain β}
    (h : c.Rel (fun x y => UpToLimits (g y) (f x)) d) (negative : Bool) :
    UpToLimits (d.fold negative g) (c.fold negative f) := by
  obtain ⟨first, rest⟩ := c
  obtain ⟨first', rest'⟩ := d
  obtain ⟨hfirst, hrest⟩ := h
  refine hfirst.bind fun b => .bind (.refl _) fun b => ?_
  clear hfirst
  dsimp only at hrest ⊢
  induction hrest generalizing b with
  | nil => exact .refl _
  | cons hx _ ih =>
    obtain ⟨hop, hx⟩ := hx
    rw [List.foldlM_cons, List.foldlM_cons, ← hop]
    exact (hx.bind fun r => .refl _).bind fun b => ih b

theorem foldRest_upToLimits (env : BindEnv) {rest : List ((Mark × ArithOp) × Node)}
    (h : ∀ x ∈ rest, x.2.isOperator = false) (acc : Bound) :
    UpToLimits
      (env.foldRest acc ((rest.flatMap fun x => [operatorNode x.1, id x.2]).map (Node.task env)))
      (rest.foldlM (fun acc x => do binaryBound x.1.2 acc (← x.2.meaning env)) acc) := by
  induction rest generalizing acc with
  | nil => exact .refl _
  | cons x rest ih =>
    have hx := h x List.mem_cons_self
    rw [List.foldlM_cons]
    simp only [List.flatMap_cons, List.cons_append, List.nil_append, List.map_cons, operatorNode,
      BindEnv.foldRest, Node.task_node, id_eq, hx, Bool.false_eq_true, if_false, bind_assoc]
    refine .bind (.refl _) fun r => ?_
    rw [Except.ofExcept_eq]
    refine .bind (.refl _) fun b => ?_
    exact .bind (.bounded env b) fun b => ih (fun y hy => h y (List.mem_cons_of_mem x hy)) b

/-- A block of a chain is bound from left to right. -/
theorem meaning_block {env : BindEnv} (hplain : env.simplify = false) (mark : Mark)
    (sign : Option (Mark × Bool)) {c : Chain Node} (h : ∀ n ∈ c.operands, n.isOperator = false) :
    UpToLimits ((Node.block mark (c.signedNodes sign)).meaning env)
      (c.fold (isNegative sign) (Node.meaning env)) := by
  obtain ⟨first, rest⟩ := c
  have hfirst : first.operator? = none := by
    simpa [Node.isOperator] using h first List.mem_cons_self
  have hrest : ∀ x ∈ rest, x.2.isOperator = false := fun x hx =>
    h x.2 (List.mem_cons_of_mem _ (List.mem_map_of_mem hx))
  have hsign : Node.splitSign (signedNodes sign ⟨first, rest⟩) =
      (isNegative sign, first :: rest.flatMap fun x => [operatorNode x.1, id x.2]) := by
    rcases sign with _ | ⟨mark, _ | _⟩
    · simp [signedNodes, nodes, items, Node.splitSign, hfirst, isNegative]
    · rfl
    · rfl
  have hblock : (Node.block mark (signedNodes sign ⟨first, rest⟩)).meaning env =
      (do
        let b ← env.foldItems ((signedNodes sign ⟨first, rest⟩).map (Node.task env))
        env.bounded b) := by
    rw [← Node.tasks_eq_map]
    simp only [Node.meaning, Node.task, Node.kept, BindMonad.keep]
  rw [hblock, Node.foldItems_map, hsign]
  simp only [hfirst, Except.ofExcept_eq, bind_assoc, pure_bind, BindEnv.finish, hplain,
    Bool.false_eq_true, if_false]
  refine .bind (.refl _) fun b => .bind (.refl _) fun b => ?_
  exact (foldRest_upToLimits env hrest b).andBounded env

/-- A node that stands for a term: its only operand, or a block of the term. -/
inductive Stands : Chain Node → Node → Prop
  | operand (n : Node) : Stands ⟨n, []⟩ n
  | block (mark : Mark) (term : Chain Node) : Stands term (.block mark term.nodes)

theorem Stands.isOperator {term : Chain Node} {n : Node} (h : term.Stands n)
    (hterm : ∀ o ∈ term.operands, o.isOperator = false) : n.isOperator = false := by
  cases h with
  | operand => exact hterm n List.mem_cons_self
  | block => rfl

/-- A node that stands for a term is bound as the term is. -/
theorem Stands.meaning {env : BindEnv} (hplain : env.simplify = false)
    {term : Chain Node} {n : Node} (h : term.Stands n)
    (hterm : ∀ o ∈ term.operands, o.isOperator = false) :
    UpToLimits (n.meaning env) (term.fold false (Node.meaning env)) := by
  cases h with
  | operand => exact .inr (fold_single _ n).symm
  | block mark => exact meaning_block hplain mark none hterm

/-! ## Arranging a chain -/

theorem productRuns_operator {p : Pending} (h : p.node.isOperator = true) (ps : List Pending) :
    productRuns (p :: ps) = [p] :: productRuns ps := by
  rw [productRuns]
  split
  · rename_i hruns
    simp [h, hruns]
  · rfl

/-- The runs of a chain are its terms, with single operators between them. -/
theorem productRuns_items {α : Type} {operator : Mark × ArithOp → Pending} {operand : α → Pending}
    (hop : ∀ op, (operator op).node = operatorNode op) {c : Chain α}
    (hc : ∀ x ∈ c.operands, (operand x).node.isOperator = false) :
    productRuns (c.items operator operand) =
      c.terms.items (fun op => [operator op]) (items operator operand) := by
  obtain ⟨first, rest⟩ := c
  induction rest generalizing first with
  | nil => rfl
  | cons x rest ih =>
    obtain ⟨op, next⟩ := x
    have hnext := ih next fun y hy => hc y (List.mem_cons_of_mem first hy)
    have hfirst : (operand first).node.isOperator = false := hc first List.mem_cons_self
    have hoperand : (operand next).node.isOperator = false := hc next (by simp [operands])
    have hoperator : (operator op).node.isOperator = true := by rw [hop]; rfl
    have hitems : items operator operand ⟨first, (op, next) :: rest⟩ =
        operand first :: operator op :: items operator operand ⟨next, rest⟩ := rfl
    have hjoins : (operator op).joinsFactors = (Operator.arith op.2).isMultiplicative := by
      unfold Pending.joinsFactors
      rw [hop]
      rfl
    rw [hitems, productRuns, productRuns_operator hoperator, hnext]
    by_cases hmul : (Operator.arith op.2).isMultiplicative = true
    · simp [terms, termsFrom, items, termsFrom_first, hfirst, hoperand, hjoins, hmul]
    · simp [terms, termsFrom, items, termsFrom_first, hfirst, hjoins, hmul]

variable {s : Scope} {depth : Nat}

theorem operatorNode_finished {op : Mark × ArithOp} {t : Node}
    (h : ((operatorNode op).pend s).Finished depth t) : t = operatorNode op := by
  obtain ⟨k, k', h⟩ := h
  simp only [operatorNode, Node.pend] at h
  cases Arranging.pure_ok h
  rfl

theorem Rel.isOperator {c c' : Chain Node}
    (h : c.Rel (fun n t => (n.pend s).Finished depth t) c')
    (hc : ∀ n ∈ c.operands, n.isOperator = false) : ∀ t ∈ c'.operands, t.isOperator = false := by
  intro t ht
  obtain ⟨n, hn, k, k', hrun⟩ := exists_of_forall₂ h.operands ht
  have hop := (Node.finish_operator? s n _).ok hrun
  rw [Node.isOperator, hop]
  exact hc n hn

/-- The items of a term are finished one by one, and they become a block if there are several. -/
theorem piece_term {many : Prop} (hmany : many) {term : Chain Node} {piece : List Node}
    (h : Piece (Pending.Finished depth) many
      (term.items (fun op => (operatorNode op).pend s) (Node.pend s)) piece) :
    ∃ term', term.Rel (fun n t => (n.pend s).Finished depth t) term' ∧
      ∃ n, term'.Stands n ∧ piece = [n] := by
  obtain ⟨items, hitems, hpiece⟩ := h
  obtain ⟨term', rfl, hrel⟩ := rel_of_items (fun _ _ => operatorNode_finished) hitems
  refine ⟨term', hrel, ?_⟩
  rcases hpiece with ⟨hshort, rfl⟩ | ⟨-, mark, rfl, -⟩
  · obtain ⟨first, rest⟩ := term'
    have hlength := hitems.length_eq
    cases rest with
    | nil => exact ⟨first, .operand first, rfl⟩
    | cons x rest =>
      refine (hshort ⟨hmany, ?_⟩).elim
      rw [hlength]
      simp [Chain.items]
  · exact ⟨_, .block mark term', rfl⟩

/-- Pieces of one node each are the items of a chain. -/
theorem flatten_items {d : Chain (List Node)} {d' : Chain Node}
    (h : d'.Rel (fun n piece => piece = [n]) d) :
    (d.items (fun op => [operatorNode op]) id).flatten = d'.nodes := by
  obtain ⟨first, rest⟩ := d
  obtain ⟨first', rest'⟩ := d'
  obtain ⟨rfl, hrest⟩ := h
  refine congrArg (first' :: ·) ?_
  change (rest.flatMap fun x => [[operatorNode x.1], x.2]).flatten = _
  dsimp only at hrest
  induction hrest with
  | nil => rfl
  | cons hx _ ih =>
    obtain ⟨hop, hpiece⟩ := hx
    rw [List.flatMap_cons, List.flatten_append, ih]
    simp [hop, hpiece]

/-- An operator between terms is finished to itself. -/
theorem piece_operator {many : Prop} {op : Mark × ArithOp} {piece : List Node}
    (h : Piece (Pending.Finished depth) many [(operatorNode op).pend s] piece) :
    piece = [operatorNode op] := by
  obtain ⟨items, hitems, hpiece⟩ := h
  obtain ⟨t, ts, ht, hts, rfl⟩ := List.forall₂_cons_left_iff.mp hitems
  cases List.forall₂_nil_left_iff.mp hts
  cases operatorNode_finished ht
  rcases hpiece with ⟨-, rfl⟩ | ⟨⟨-, hlength⟩, -⟩
  · rfl
  · simp at hlength

/-- Where there are several runs, each term is finished to a node that stands for it. -/
theorem pieces_terms {many : Prop} (hmany : many) {c : Chain Node} {pieces : List (List Node)}
    (h : List.Forall₂ (Piece (Pending.Finished depth) many)
      (c.terms.items (fun op => [(operatorNode op).pend s])
        (items (fun op => (operatorNode op).pend s) (Node.pend s))) pieces) :
    ∃ c', c.Rel (fun n t => (n.pend s).Finished depth t) c' ∧
      ∃ d, c'.terms.Rel Stands d ∧ pieces.flatten = d.nodes := by
  obtain ⟨d₀, rfl, hd₀⟩ := rel_of_items (fun _ _ => piece_operator) h
  obtain ⟨terms, hterms, hpieces⟩ := (hd₀.imp fun _ _ => piece_term hmany).split
  obtain ⟨c', rfl, hc'⟩ := rel_of_terms hterms
  obtain ⟨d, hd, hflat⟩ := hpieces.split
  exact ⟨c', hc', d, hd, flatten_items hflat⟩

/-- A single run is finished item by item. -/
theorem pieces_single {many : Prop} (hmany : ¬ many) {c : Chain Node} (hsingle : c.terms.rest = [])
    {pieces : List (List Node)}
    (h : List.Forall₂ (Piece (Pending.Finished depth) many)
      (c.terms.items (fun op => [(operatorNode op).pend s])
        (items (fun op => (operatorNode op).pend s) (Node.pend s))) pieces) :
    ∃ c', c.Rel (fun n t => (n.pend s).Finished depth t) c' ∧ c'.terms = ⟨c', []⟩ ∧
      pieces.flatten = c'.nodes := by
  have hterms := terms_of_single hsingle
  rw [hterms] at h
  obtain ⟨piece, pieces, hpiece, hpieces, rfl⟩ := List.forall₂_cons_left_iff.mp h
  cases List.forall₂_nil_left_iff.mp hpieces
  obtain ⟨items, hitems, ⟨-, rfl⟩ | ⟨⟨hyes, -⟩, -⟩⟩ := hpiece
  · obtain ⟨term, rfl, hrel⟩ := rel_of_items (fun _ _ => operatorNode_finished) hitems
    have hc : c.terms.Rel (Rel fun n t => (n.pend s).Finished depth t) ⟨term, []⟩ := by
      rw [hterms]
      exact ⟨hrel, .nil⟩
    obtain ⟨c', hterm, hc'⟩ := rel_of_terms hc
    have hsame := terms_of_single (c := c') (by rw [← hterm])
    rw [← hterm] at hsame
    cases hsame
    exact ⟨term, hc', hterm.symm, by simp [nodes]⟩
  · exact (hmany hyes).elim

/-- The items of a block are finished to those of a chain whose operands stand for the terms. A
single term without a sign stays as it is. -/
def Grouped (sign : Option (Mark × Bool)) (c : Chain Node) (ns : List Node) : Prop :=
  (∃ d, c.terms.Rel Stands d ∧ ns = d.signedNodes sign) ∨
    sign = none ∧ c.terms = ⟨c, []⟩ ∧ ns = c.nodes

theorem mem_signedNodes {sign : Option (Mark × Bool)} {c : Chain Node} {n : Node}
    (h : n ∈ c.signedNodes sign) : n ∈ c.operands ∨ ∃ op, n = operatorNode op := by
  rcases List.mem_append.mp h with h | h
  · obtain ⟨op, -, rfl⟩ := List.mem_map.mp h
    exact .inr ⟨_, rfl⟩
  · rcases List.mem_cons.mp h with rfl | h
    · exact .inl List.mem_cons_self
    · obtain ⟨x, hx, hn⟩ := List.mem_flatMap.mp h
      rcases List.mem_pair.mp hn with rfl | rfl
      · exact .inr ⟨_, rfl⟩
      · exact .inl (List.mem_cons_of_mem _ (List.mem_map_of_mem hx))

theorem finishProducts_chain (s : Scope) (depth : Nat) (sign : Option (Mark × Bool))
    {c : Chain Node} (hc : ∀ n ∈ c.operands, n.isOperator = false) :
    (finishProducts depth ((c.signedNodes sign).map (Node.pend s))).Ends
      (fun ns => ∃ c', c.Rel (fun n t => (n.pend s).Finished depth t) c' ∧ c'.Grouped sign ns)
      (fun e => ∃ n ∈ c.operands, ∃ k,
        ((n.pend s).finish (itemDepth depth n)).run k = .error e) := by
  have hruns : productRuns (c.nodes.map (Node.pend s)) =
      c.terms.items (fun op => [(operatorNode op).pend s])
        (items (fun op => (operatorNode op).pend s) (Node.pend s)) := by
    rw [nodes, map_items]
    exact productRuns_items (fun op => Node.pend_node s _) (by simpa using hc)
  refine (finishProducts_ends (R := Pending.Finished depth) ?_).mono ?_ fun _ he => he
  · intro p hp
    obtain ⟨n, hn, rfl⟩ := List.mem_map.mp hp
    refine (Arranging.Ends.of_runs _).mono (fun _ h => h) ?_
    rintro e ⟨k, hk⟩
    rw [Node.pend_node] at hk
    rcases mem_signedNodes hn with hn | ⟨op, rfl⟩
    · exact ⟨n, hn, k, hk⟩
    · simp only [operatorNode, Node.pend] at hk
      cases hk
  · rintro _ ⟨pieces, rfl, hpieces⟩
    cases sign with
    | none =>
      simp only [signedNodes, Option.toList_none, List.map_nil, List.nil_append] at hpieces
      rw [hruns] at hpieces
      by_cases hmany : 1 < (c.terms.items (fun op => [(operatorNode op).pend s])
          (items (fun op => (operatorNode op).pend s) (Node.pend s))).length
      · obtain ⟨c', hc', d, hd, hns⟩ := pieces_terms hmany hpieces
        exact ⟨c', hc', .inl ⟨d, hd, hns⟩⟩
      · have hsingle : c.terms.rest = [] := by
          cases hrest : c.terms.rest with
          | nil => rfl
          | cons x rest => simp [items, hrest] at hmany
        obtain ⟨c', hc', hterms, hns⟩ := pieces_single hmany hsingle hpieces
        exact ⟨c', hc', .inr ⟨rfl, hterms, hns⟩⟩
    | some sign =>
      simp only [signedNodes, Option.toList_some, List.map_cons, List.map_nil, List.cons_append,
        List.nil_append] at hpieces
      rw [productRuns_operator (by rw [Node.pend_node]; rfl), hruns] at hpieces
      obtain ⟨piece, more, hpiece, hmore, rfl⟩ := List.forall₂_cons_left_iff.mp hpieces
      cases piece_operator hpiece
      obtain ⟨c', hc', d, hd, hns⟩ := pieces_terms (by simp [items]) hmore
      exact ⟨c', hc', .inl ⟨d, hd, by simp [signedNodes, signNode, hns]⟩⟩

/-- A block of grouped terms is bound as the chain is meant to be bound. -/
theorem Grouped.meaning {env : BindEnv} (hplain : env.simplify = false)
    {sign : Option (Mark × Bool)} {c : Chain Node} (hc : ∀ n ∈ c.operands, n.isOperator = false)
    {ns : List Node} (h : c.Grouped sign ns) (mark : Mark) :
    UpToLimits ((Node.block mark ns).meaning env)
      (c.bound (isNegative sign) (Node.meaning env)) := by
  rcases h with ⟨d, hd, rfl⟩ | ⟨rfl, hterms, rfl⟩
  · have hterms := hd.and_left fun term hterm n hn =>
      hc n (by rw [← c.operands_terms]; exact List.mem_flatMap.mpr ⟨term, hterm, hn⟩)
    have hoperands : ∀ n ∈ d.operands, n.isOperator = false := by
      intro n hn
      obtain ⟨term, -, hterm, hstands⟩ := exists_of_forall₂ hterms.operands hn
      exact hstands.isOperator hterm
    refine (meaning_block hplain mark sign hoperands).trans (fold_upToLimits ?_ _)
    exact hterms.imp fun term n hn => hn.2.meaning hplain hn.1
  · rw [bound, hterms, isNegative, Option.any_none, fold_single]
    exact meaning_block hplain mark none hc

/-! ## Blocks -/

private theorem operand_mem_nodes {c : Chain Node} {n : Node} (h : n ∈ c.operands) :
    n ∈ c.nodes := by
  rcases List.mem_cons.mp h with rfl | h
  · exact List.mem_cons_self
  · obtain ⟨x, hx, rfl⟩ := List.mem_map.mp h
    exact List.mem_cons_of_mem _ (List.mem_flatMap.mpr ⟨x, hx, by simp⟩)

/-- The nodes of an operand are nodes of the block. -/
theorem Grouped.slots_sublist {sign : Option (Mark × Bool)} {c : Chain Node} {ns : List Node}
    (h : c.Grouped sign ns) {n : Node} (hn : n ∈ c.operands) :
    n.slots.Sublist (Node.slotsAll ns) := by
  rcases h with ⟨d, hd, rfl⟩ | ⟨-, -, rfl⟩
  · rw [← c.operands_terms] at hn
    obtain ⟨term, hterm, hn⟩ := List.mem_flatMap.mp hn
    obtain ⟨m, hm, hstands⟩ := exists_of_forall₂ hd.operands.flip hterm
    have hnm : n.slots.Sublist m.slots := by
      cases hstands with
      | operand =>
        cases List.mem_singleton.mp hn
        exact .refl _
      | block mark => exact .cons _ (Node.slots_sublist (operand_mem_nodes hn))
    have hmem : m ∈ d.signedNodes sign := List.mem_append_right _ (operand_mem_nodes hm)
    exact hnm.trans (Node.slots_sublist hmem)
  · exact Node.slots_sublist (operand_mem_nodes hn)

end Chain

namespace Scope

variable {s : Scope} {ps : List Pending}

theorem casts_of_none (h : ∀ p ∈ ps, s.castTarget? p.node = none) : s.casts ps = pure ps := by
  induction ps with
  | nil => rfl
  | cons p rest ih =>
    rw [casts, ih fun q hq => h q (List.mem_cons_of_mem p hq), pure_bind, h p List.mem_cons_self]

theorem bars_of_none (h : ∀ p ∈ ps, p.node.operator? ≠ some .bar) (depth : Nat)
    (before : List Pending) : s.bars depth [] before ps = pure (before.reverse ++ ps) := by
  induction ps generalizing before with
  | nil => simp [bars]
  | cons p rest ih =>
    rw [bars, if_neg (h p List.mem_cons_self), ih fun q hq => h q (List.mem_cons_of_mem p hq)]
    simp

end Scope

namespace Chain

theorem finishBlock_chain (s : Scope) (depth : Nat) (mark : Mark) (sign : Option (Mark × Bool))
    {c : Chain Node} (hc : ∀ n ∈ c.operands, n.isOperator = false ∧ s.castTarget? n = none) :
    (s.finishBlock depth mark ((c.signedNodes sign).map (Node.pend s))).Ends
      (fun t => ∃ c' ns, c.Rel (fun n t => (n.pend s).Finished depth t) c' ∧ c'.Grouped sign ns ∧
        t = .block mark ns)
      (fun e => e = s.tooDeep ∨
        ∃ n ∈ c.operands, ∃ k, ((n.pend s).finish (itemDepth depth n)).run k = .error e) := by
  have hnodes : ∀ p ∈ (c.signedNodes sign).map (Node.pend s),
      s.castTarget? p.node = none ∧ p.node.operator? ≠ some .bar := by
    intro p hp
    obtain ⟨n, hn, rfl⟩ := List.mem_map.mp hp
    rw [Node.pend_node]
    rcases mem_signedNodes hn with hn | ⟨op, rfl⟩
    · obtain ⟨hoperator, htarget⟩ := hc n hn
      exact ⟨htarget, fun hbar => by simp [Node.isOperator, hbar] at hoperator⟩
    · exact ⟨rfl, by simp [operatorNode, Node.operator?]⟩
  unfold Scope.finishBlock
  rw [Scope.casts_of_none fun p hp => (hnodes p hp).1, pure_bind,
    Scope.bars_of_none fun p hp => (hnodes p hp).2, pure_bind]
  refine ((s.checkDepth_ends depth).mono (fun _ h => h) fun _ he => .inl he).bind fun _ _ => ?_
  refine ((finishProducts_chain s depth sign fun n hn => (hc n hn).1).mono (fun _ h => h)
    fun _ he => .inr he).bind ?_
  rintro ns ⟨c', hc', hns⟩
  exact .pure ⟨c', ns, hc', hns, rfl⟩

/-- **Precedence.** A block of operands, operators and perhaps a sign is arranged, unless it nests
too deep or an operand cannot be arranged. Binding it then gives what binding the chain of its
arranged operands, each on its own, is meant to give: the same tree or the same error, unless a
limit is exceeded. -/
theorem resolve_precedence {s : Scope} {env : BindEnv} (hplain : env.simplify = false)
    {c : Chain Node} (hc : ∀ n ∈ c.operands, n.isOperator = false ∧ s.castTarget? n = none)
    (sign : Option (Mark × Bool)) (mark : Mark) (depth : Nat) {k : Nat}
    (hk : (Node.block mark (c.signedNodes sign)).Numbered k) :
    match (((Node.block mark (c.signedNodes sign)).pend s).finish depth).run k with
    | .error e => e = s.tooDeep ∨
        ∃ n ∈ c.operands, ∃ k', ((n.pend s).finish (itemDepth depth n)).run k' = .error e
    | .ok (t, count) => ∃ c', c.Rel (fun n n' => (n.pend s).Finished depth n') c' ∧
        UpToLimits ((t.resolve env).run (.empty count)).1
          (c'.bound (isNegative sign) fun n' => ((n'.resolve env).run (.empty count)).1) := by
  have hblock := finishBlock_chain s depth mark sign hc
  have hnumbered := Node.pend_numbered s (Node.block mark (c.signedNodes sign)) depth k
  rw [Node.pend_node] at hnumbered
  simp only [Node.pend, Node.pendAll_eq_map] at hnumbered ⊢
  rcases hrun : (s.finishBlock depth mark ((c.signedNodes sign).map (Node.pend s))).run k with
    e | ⟨t, count⟩
  · exact hblock.error hrun
  · obtain ⟨c', ns, hc', hgrouped, rfl⟩ := hblock.ok hrun
    refine ⟨c', hc', ?_⟩
    have hslots : (Node.block mark ns).slots.Nodup := (hnumbered _ _ hk hrun).nodup
    have hfree : ∀ S, (Slots.empty count).FreeAt S := fun S i _ => Slots.get?_empty count i
    have hoperands : ∀ n ∈ c'.operands,
        ((n.resolve env).run (.empty count)).1 = n.meaning env := fun n hn =>
      Node.resolve_eq_meaning env
        (((hgrouped.slots_sublist hn).trans (List.sublist_cons_self _ _)).nodup hslots) (hfree _)
    rw [bound_congr hoperands, Node.resolve_eq_meaning env hslots (hfree _)]
    exact hgrouped.meaning hplain (hc'.isOperator fun n hn => (hc n hn).1) mark

/-- The chain of `1 * 2 + 3`. -/
def productAndSum : Chain Node :=
  ⟨.constant ⟨2, 1⟩ (.ofInt .i32 1),
    [((⟨3, 3⟩, .mul), .constant ⟨4, 5⟩ (.ofInt .i32 2)),
      ((⟨5, 7⟩, .add), .constant ⟨6, 9⟩ (.ofInt .i32 3))]⟩

/-- The block of `-1 * 2 + 3` binds to a sum, whose left side is the product with its sign. -/
theorem resolve_precedence_minus_product :
    let s : Scope := ⟨(Registry.standard []).host, ⟨none, []⟩, 128⟩
    let env : BindEnv := ⟨(Registry.standard []).host, ⟨none, []⟩, 1024, false⟩
    ∃ t count c' b,
      (((Node.block ⟨0, 0⟩
        (productAndSum.signedNodes (some (⟨1, 0⟩, true)))).pend s).finish 0).run 7 =
          .ok (t, count) ∧
      productAndSum.Rel (fun n n' => (n.pend s).Finished 0 n') c' ∧
      ((t.resolve env).run (.empty count)).1 = .ok b ∧
      c'.bound true (fun n' => ((n'.resolve env).run (.empty count)).1) = .ok b := by
  intro s env
  have hc : ∀ n ∈ productAndSum.operands, n.isOperator = false ∧ s.castTarget? n = none := by
    intro n hn
    simp only [operands, productAndSum, List.map_cons, List.map_nil, List.mem_cons,
      List.not_mem_nil, or_false] at hn
    rcases hn with rfl | rfl | rfl <;> exact ⟨rfl, rfl⟩
  have hk : (Node.block ⟨0, 0⟩ (productAndSum.signedNodes (some (⟨1, 0⟩, true)))).Numbered 7 :=
    ⟨by decide, by decide⟩
  have hplain : env.simplify = false := rfl
  have hbound := resolve_precedence hplain hc (some (⟨1, 0⟩, true)) ⟨0, 0⟩ 0 hk
  have hok : (((((Node.block ⟨0, 0⟩
      (productAndSum.signedNodes (some (⟨1, 0⟩, true)))).pend s).finish 0).run 7).toOption.bind
        fun r => ((r.1.resolve env).run (.empty r.2)).1.toOption).isSome = true := by
    decide +kernel
  obtain ⟨b, hb⟩ := Option.isSome_iff_exists.mp hok
  obtain ⟨⟨t, count⟩, ht, hb⟩ := Option.bind_eq_some_iff.mp hb
  have ht := Except.toOption_eq_some ht
  have hb := Except.toOption_eq_some hb
  rw [ht] at hbound
  obtain ⟨c', hc', hlimit | hsame⟩ := hbound
  · obtain ⟨limit, n, hlimit⟩ := hlimit
    rw [hb] at hlimit
    cases hlimit
  · exact ⟨t, count, c', b, ht, hc', hb, by rw [← hb, hsame]; rfl⟩

end Chain

end Formula
