import Formula.Proofs.Finishing

/-!
# Runs of factors

The items of a block are split into runs: operands joined by `*`, `/` or `%`, and single items.
Where runs are found depends on the operators only (`productRuns_forall₂`). A run of several items
starts with an operand, and is one run when it stands alone (`productRuns_run`).

So what a block is finished to is grouped: splitting it again finds one run, or single items only
(`grouped_flatten`).
-/

namespace Formula

variable {ps qs run : List Pending} {p : Pending}

/-- Whether an operator joins the operands on its sides to a product. -/
def joins (p op q : Pending) : Bool := !p.node.isOperator && op.joinsFactors && !q.node.isOperator

theorem joins_iff {p op q : Pending} : joins p op q = true ↔ p.node.operator? = none ∧
    (∃ o, op.node.operator? = some o ∧ o.isMultiplicative = true) ∧ q.node.operator? = none := by
  have hop : op.joinsFactors = true ↔ ∃ o, op.node.operator? = some o ∧
      o.isMultiplicative = true := by
    unfold Pending.joinsFactors
    cases op.node.operator? <;> simp
  simp [joins, Node.isOperator, hop, and_assoc]

private theorem joins_congr {p op q p' op' q' : Pending} (hp : p'.node.operator? = p.node.operator?)
    (hop : op'.node.operator? = op.node.operator?) (hq : q'.node.operator? = q.node.operator?) :
    joins p' op' q' = joins p op q := by
  rw [Bool.eq_iff_iff, joins_iff, joins_iff, hp, hop, hq]

/-- A step of splitting: the item in front is joined to the run behind the next operator, or is a
run of its own. -/
theorem productRuns_cons (p : Pending) (ps : List Pending) :
    (∃ op q run more, productRuns ps = [op] :: (q :: run) :: more ∧ joins p op q = true ∧
      productRuns (p :: ps) = (p :: op :: q :: run) :: more) ∨
    (∀ op q run more, productRuns ps = [op] :: (q :: run) :: more → joins p op q = false) ∧
      productRuns (p :: ps) = [p] :: productRuns ps := by
  rw [productRuns]
  split
  · rename_i op q run more hruns
    cases hjoins : joins p op q with
    | true => exact .inl ⟨op, q, run, more, hruns, hjoins, if_pos hjoins⟩
    | false =>
      refine .inr ⟨fun op' q' run' more' hruns' => ?_, ?_⟩
      · cases hruns.symm.trans hruns'
        exact hjoins
      · rw [hruns]
        exact if_neg (by simpa [joins] using hjoins)
  · rename_i hshape
    exact .inr ⟨fun op q run more hruns => (hshape op q run more hruns).elim, rfl⟩

/-- Runs are found by looking at the operators only. -/
theorem productRuns_forall₂ {R : Pending → Pending → Prop}
    (hR : ∀ p q, R p q → q.node.operator? = p.node.operator?) (h : List.Forall₂ R ps qs) :
    List.Forall₂ (List.Forall₂ R) (productRuns ps) (productRuns qs) := by
  induction h with
  | nil => exact .nil
  | @cons p q ps qs hp _ ih =>
    unfold productRuns
    generalize productRuns ps = runs, productRuns qs = runs' at ih
    -- the two sides take the same branch, as the first runs are of the same shape
    cases ih with
    | nil => exact .cons (.cons hp .nil) .nil
    | cons hfirst hrest =>
      rcases hfirst with _ | ⟨hop, _ | ⟨hnext, hmore⟩⟩
      · exact .cons (.cons hp .nil) (.cons .nil hrest)
      · rcases hrest with _ | ⟨_ | ⟨hnext, hrun⟩, hrest⟩
        · exact .cons (.cons hp .nil) (.cons (.cons hop .nil) .nil)
        · exact .cons (.cons hp .nil) (.cons (.cons hop .nil) (.cons .nil hrest))
        · show List.Forall₂ _ (if joins _ _ _ then _ else _) (if joins _ _ _ then _ else _)
          rw [joins_congr (hR _ _ hp) (hR _ _ hop) (hR _ _ hnext)]
          split
          · exact .cons (.cons hp (.cons hop (.cons hnext hrun))) hrest
          · exact .cons (.cons hp .nil) (.cons (.cons hop .nil) (.cons (.cons hnext hrun) hrest))
      · exact .cons (.cons hp .nil) (.cons (.cons hop (.cons hnext hmore)) hrest)

theorem ne_nil_of_mem_productRuns (h : run ∈ productRuns ps) : run ≠ [] := by
  induction ps with
  | nil => cases h
  | cons p ps ih =>
    rcases productRuns_cons p ps with ⟨op, q, rest, more, hps, -, hruns⟩ | ⟨-, hruns⟩ <;>
      rcases List.mem_cons.mp (hruns ▸ h) with rfl | h
    · exact List.cons_ne_nil _ _
    · exact ih (hps ▸ List.mem_cons_of_mem _ (List.mem_cons_of_mem _ h))
    · exact List.cons_ne_nil _ _
    · exact ih h

/-- A run is one run when it stands alone. -/
theorem productRuns_run (h : run ∈ productRuns ps) : productRuns run = [run] := by
  induction ps generalizing run with
  | nil => cases h
  | cons p ps ih =>
    rcases productRuns_cons p ps with ⟨op, q, rest, more, hps, hjoins, hruns⟩ | ⟨-, hruns⟩ <;>
      rcases List.mem_cons.mp (hruns ▸ h) with rfl | h
    · have hrest : productRuns (q :: rest) = [q :: rest] :=
        ih (hps ▸ List.mem_cons_of_mem _ List.mem_cons_self)
      have hop : productRuns (op :: q :: rest) = [[op], q :: rest] := by
        rcases productRuns_cons op (q :: rest) with ⟨op', q', _, _, hshape, -⟩ | ⟨-, hruns⟩
        · rw [hrest] at hshape
          cases hshape
        · rw [hruns, hrest]
      rcases productRuns_cons p (op :: q :: rest)
        with ⟨op', q', rest', more', hshape, -, hruns⟩ | ⟨hnone, -⟩
      · rw [hop] at hshape
        cases hshape
        exact hruns
      · cases (hnone _ _ _ _ hop).symm.trans hjoins
    · exact ih (hps ▸ List.mem_cons_of_mem _ (List.mem_cons_of_mem _ h))
    · rfl
    · exact ih h

/-! ## Runs that are finished -/

/-- No operands are joined by `*`, `/` or `%`. -/
def FactorFree (ops : List (Option Operator)) : Prop :=
  ∀ op, [none, some op, none] <:+: ops → op.isMultiplicative = false

theorem FactorFree.of_suffix {ops ops' : List (Option Operator)} (h : FactorFree ops)
    (hsuffix : ops' <:+ ops) :
    FactorFree ops' :=
  fun op hop => h op (hop.trans hsuffix.isInfix)

theorem productRuns_of_factorFree (h : FactorFree (ps.map (·.node.operator?))) :
    productRuns ps = ps.map ([·]) := by
  induction ps with
  | nil => rfl
  | cons p ps ih =>
    have hps := ih (h.of_suffix (List.suffix_cons _ _))
    rcases productRuns_cons p ps with ⟨op, q, run, more, hruns, hjoins, -⟩ | ⟨-, hruns⟩
    · obtain ⟨hp, ⟨o, ho, hmul⟩, hq⟩ := joins_iff.mp hjoins
      rcases ps with _ | ⟨op', _ | ⟨q', rest⟩⟩
      · cases hruns
      · cases hps.symm.trans hruns
      · cases hps.symm.trans hruns
        have hfactors : [none, some o, none] <:+: (p :: op :: q :: rest).map (·.node.operator?) :=
          ⟨[], rest.map (·.node.operator?), by simp [hp, ho, hq]⟩
        cases (h o hfactors).symm.trans hmul
    · rw [hruns, hps, List.map_cons]

/-- What stands for a run after it is finished: an operand for several items, or the item. -/
def standing : List Pending → Option Operator
  | [p] => p.node.operator?
  | _ => none

private theorem standing_eq_none {q : Pending} (h : q.node.operator? = none) (run : List Pending) :
    standing (q :: run) = none := by
  cases run with
  | nil => exact h
  | cons => rfl

/-- What stands for a run is an operand if its first item is one. -/
theorem operand_of_standing (h : run ∈ productRuns ps) (hrun : standing run = none) :
    ∃ q rest, run = q :: rest ∧ q.node.operator? = none := by
  induction ps with
  | nil => cases h
  | cons p ps ih =>
    rcases productRuns_cons p ps with ⟨op, q, rest, more, hps, hjoins, hruns⟩ | ⟨-, hruns⟩ <;>
      rcases List.mem_cons.mp (hruns ▸ h) with rfl | h
    · exact ⟨p, _, rfl, (joins_iff.mp hjoins).1⟩
    · exact ih (hps ▸ List.mem_cons_of_mem _ (List.mem_cons_of_mem _ h))
    · exact ⟨p, [], rfl, hrun⟩
    · exact ih h

theorem factorFree_standing (ps : List Pending) : FactorFree ((productRuns ps).map standing) := by
  induction ps with
  | nil => exact fun op hop => by simp [productRuns] at hop
  | cons p ps ih =>
    rcases productRuns_cons p ps with ⟨op, q, run, more, hps, hjoins, hruns⟩ | ⟨hnone, hruns⟩
    · -- the new run is an operand, as the run is that it takes in
      have hq := (joins_iff.mp hjoins).2.2
      rw [hps, List.map_cons, List.map_cons, standing_eq_none hq] at ih
      rw [hruns]
      exact ih.of_suffix (List.suffix_cons _ _)
    · rw [hruns, List.map_cons]
      intro o ho
      rcases List.infix_cons_iff.mp ho with hfront | hbehind
      · -- the item and the next two runs would have been joined
        obtain ⟨more, hfront⟩ := hfront
        obtain ⟨hp, hmore⟩ := List.cons_eq_cons.mp hfront.symm
        obtain ⟨first, runs, hps, hfirst, hruns⟩ := List.map_eq_cons_iff.mp hmore
        obtain ⟨second, runs, rfl, hsecond, -⟩ := List.map_eq_cons_iff.mp hruns
        obtain ⟨q, run, rfl, hq⟩ :=
          operand_of_standing (hps ▸ List.mem_cons_of_mem _ List.mem_cons_self) hsecond
        obtain ⟨op, rfl, hop⟩ : ∃ op, first = [op] ∧ op.node.operator? = some o := by
          rcases first with _ | ⟨op, _ | _⟩
          · cases hfirst
          · exact ⟨op, rfl, hfirst⟩
          · cases hfirst
        cases hmul : o.isMultiplicative with
        | false => rfl
        | true =>
          cases (hnone op q run runs hps).symm.trans (joins_iff.mpr ⟨hp, ⟨o, hop, hmul⟩, hq⟩)
      · exact ih o hbehind

section

variable {R : Pending → Node → Prop} (hR : ∀ p n, R p n → n.operator? = p.node.operator?)

include hR

/-- Where there are several runs, each is finished to one item. -/
theorem piece_standing {many : Prop} (hmany : many) (hne : run ≠ []) {piece : List Node}
    (h : Piece R many run piece) :
    piece.map Node.operator? = [standing run] := by
  obtain ⟨items, hitems, ⟨hshort, rfl⟩ | ⟨⟨-, hlong⟩, mark, rfl, -⟩⟩ := h
  · rcases hitems with _ | ⟨hn, _ | _⟩
    · exact (hne rfl).elim
    · exact congrArg (fun op => [op]) (hR _ _ hn)
    · exact (hshort ⟨hmany, by simp⟩).elim
  · rcases run with _ | ⟨p, _ | ⟨q, run⟩⟩
    · cases hlong
    · exact (Nat.lt_irrefl 1 hlong).elim
    · rfl

theorem flatten_standing {many : Prop} (hmany : many) {runs : List (List Pending)}
    (hne : ∀ run ∈ runs, run ≠ []) {pieces : List (List Node)}
    (h : List.Forall₂ (Piece R many) runs pieces) :
    pieces.flatten.map Node.operator? = runs.map standing := by
  induction h with
  | nil => rfl
  | cons hpiece _ ih =>
    obtain ⟨hrun, hruns⟩ := List.forall_mem_cons.mp hne
    rw [List.flatten_cons, List.map_append, piece_standing hR hmany hrun hpiece,
      ih hruns, List.map_cons, List.singleton_append]

omit hR in
/-- Where there is one run, its items are finished one by one. -/
theorem forall₂_flatten {many : Prop} (hmany : ¬ many) {pieces : List (List Node)}
    (h : List.Forall₂ (Piece R many) (productRuns ps) pieces) :
    List.Forall₂ R ps pieces.flatten := by
  have hitems : List.Forall₂ (List.Forall₂ R) (productRuns ps) pieces := by
    refine h.imp fun run piece hpiece => ?_
    obtain ⟨items, hitems, ⟨-, rfl⟩ | ⟨⟨hlong, -⟩, -⟩⟩ := hpiece
    · exact hitems
    · exact (hmany hlong).elim
  have hall := List.rel_flatten hitems
  rwa [productRuns_flatten] at hall

end

/-- Splitting the items into runs leaves them as they are: there is one run, or there are single
items only. -/
def Grouped (items : List Node) : Prop :=
  ∀ ps : List Pending, ps.map (·.node.operator?) = items.map Node.operator? →
    (productRuns ps).length ≤ 1 ∨ productRuns ps = ps.map ([·])

/-- Items that are finished one by one are grouped as they were. -/
theorem grouped_of_single {R : Pending → Node → Prop}
    (hR : ∀ p n, R p n → n.operator? = p.node.operator?) {items : List Node}
    (h : List.Forall₂ R ps items) (hone : (productRuns ps).length ≤ 1) : Grouped items := by
  intro qs hqs
  have hops := map_eq_map_iff_forall₂.mpr (h.imp fun p n h => (hR p n h).symm)
  have hsame := (map_eq_map_iff_forall₂.mp (hops.trans hqs.symm)).imp fun _ _ h => h.symm
  rw [← (productRuns_forall₂ (fun _ _ h => h) hsame).length_eq]
  exact .inl hone

section

variable {R : Pending → Node → Prop} (hR : ∀ p n, R p n → n.operator? = p.node.operator?)
  {pieces : List (List Node)}
  (h : List.Forall₂ (Piece R (1 < (productRuns ps).length)) (productRuns ps) pieces)

include hR h

/-- **What runs are finished to is grouped.** -/
theorem grouped_flatten : Grouped pieces.flatten := by
  by_cases hmany : 1 < (productRuns ps).length
  · intro qs hqs
    rw [flatten_standing hR hmany (fun _ => ne_nil_of_mem_productRuns) h] at hqs
    exact .inr (productRuns_of_factorFree (hqs ▸ factorFree_standing ps))
  · exact grouped_of_single hR (forall₂_flatten hmany h) (Nat.le_of_not_lt hmany)

/-- At most one item is left of one item only. -/
theorem forall₂_of_length_le_one (hone : pieces.flatten.length ≤ 1) :
    List.Forall₂ R ps pieces.flatten := by
  by_cases hmany : 1 < (productRuns ps).length
  · have hlength :=
      congrArg List.length (flatten_standing hR hmany (fun _ => ne_nil_of_mem_productRuns) h)
    rw [List.length_map, List.length_map] at hlength
    omega
  · exact forall₂_flatten hmany h

end

end Formula
