import Formula.Proofs.Finishing
import Formula.Proofs.Shape

/-!
# Arranging decides the grammar

What arranging makes of a formed tree is well shaped and of any other tree is not, and it finds
fault only with trees that are not formed (`Node.pend_decides`). The three passes over a block, one
after the other, keep what the grammar says of it:

* forming casts (`Scope.casts_decides`) leaves items that the grammar takes where it took the block;
* replacing bars (`Scope.bars_decides`) leaves a flat expression exactly if the grammar takes the
  block; `BarsRead` says so of a block that has been read in part;
* grouping products (`finishProducts_decides`) changes nothing about how the block is read.
-/

namespace Formula

open Grammar

/-- Finishing a node decides whether it is formed. -/
def Pending.Decides (s : Scope) (p : Pending) : Prop :=
  ∀ depth, (p.finish depth).Ends
    (fun t => t.operator? = p.node.operator? ∧ (t.WellShaped ↔ p.node.Formed s))
    (fun e => e.isParse = true → p.node.isOperator = false ∧ ¬ p.node.Formed s)

/-! ## Casts -/

/-- The tokens of the items of a block that wait. -/
def Scope.tokens (s : Scope) (ps : List Pending) : List Token := ps.map fun p => s.token p.node

/-- Items that wait are formed, operators apart. -/
def AllFormed (s : Scope) (ps : List Pending) : Prop :=
  ∀ p ∈ ps, p.node.isOperator = true ∨ p.node.Formed s

/-- The grammar takes the items from `c` on: they complete the expression, and they are formed. -/
def Scope.Takes (s : Scope) (c : Expects × Nat) (ps : List Pending) : Prop :=
  Accepts c (s.tokens ps) ∧ AllFormed s ps

section

variable {s : Scope} {p : Pending} {ps qs : List Pending}

theorem allFormed_cons :
    AllFormed s (p :: ps) ↔ (p.node.isOperator = true ∨ p.node.Formed s) ∧ AllFormed s ps := by
  simp [AllFormed]

theorem allFormed_append : AllFormed s (ps ++ qs) ↔ AllFormed s ps ∧ AllFormed s qs := by
  simp [AllFormed, or_imp, forall_and]

theorem tokens_cons : s.tokens (p :: ps) = s.token p.node :: s.tokens ps := rfl

theorem tokens_append : s.tokens (ps ++ qs) = s.tokens ps ++ s.tokens qs := by
  simp [Scope.tokens]

private theorem leadingOperators_head {ps : List Pending} {operand : Pending} {after : List Pending}
    (h : (leadingOperators ps).2 = operand :: after) : operand.node.isOperator = false := by
  induction ps with
  | nil => simp [leadingOperators] at h
  | cons p rest ih =>
    unfold leadingOperators at h
    split at h
    · exact ih h
    · rename_i hp
      cases h
      cases hn : operand.node with
      | operator mark op => exact (hp mark op hn).elim
      | _ => rfl

theorem token_item {n : Node} (htarget : s.castTarget? n = none) (hn : n.isOperator = false) :
    s.token n = .item := by
  cases n <;> simp_all [Scope.token, Node.token, Node.isOperator, Node.operator?]

theorem token_type {n : Node} (h : (s.castTarget? n).isSome) : s.token n = .type := by
  simp [Scope.token, h]

/-- Before the operand of a cast the grammar reads a sign or nothing. -/
theorem accepts_signs {signs : List (Mark × Operator)} {k : Nat} {ts : List Token} :
    Accepts (.castStart, k) (signs.map (fun sign => .op sign.2) ++ ts) ↔
      signs = [] ∧ Accepts (.castStart, k) ts ∨
        signs ≠ [] ∧ IsCastSign signs ∧ Accepts (.castOperand, k) ts := by
  rcases signs with _ | ⟨⟨mark, op | _⟩, _ | ⟨⟨mark', op' | _⟩, signs⟩⟩ <;>
    simp [accepts_cons, move, Expects.next, IsCastSign]

private theorem accepts_castStart {signs : List (Mark × Operator)} {k : Nat} {ts : List Token} :
    Accepts (.castStart, k) (signs.map (fun sign => .op sign.2) ++ .item :: ts) ↔
      IsCastSign signs ∧ Accepts (.operator, k) ts := by
  rw [accepts_signs, accepts_item, accepts_item]
  cases signs <;> simp [IsCastSign]

/-- A cast needs an operand. -/
theorem not_accepts_castStart {signs : List (Mark × Operator)} {k : Nat} :
    ¬ Accepts (.castStart, k) (signs.map fun sign => .op sign.2) := by
  rw [← List.append_nil (signs.map _), accepts_signs, accepts_nil, accepts_nil]
  simp

theorem IsCastSign.ne_bar {signs : List (Mark × Operator)} (h : IsCastSign signs)
    {sign : Mark × Operator} (hsign : sign ∈ signs) : sign.2 ≠ .bar := by
  rcases signs with _ | ⟨first, _ | ⟨second, rest⟩⟩
  · simp at hsign
  · cases List.mem_singleton.mp hsign
    intro hbar
    simp [IsCastSign, hbar, Operator.isSign] at h
  · exact h.elim

theorem tooDeep_isParse (s : Scope) : s.tooDeep.isParse = false := rfl

theorem Scope.pendCast_formed {mark typeMark : Mark} {target : TypeName}
    {signs : List (Mark × Operator)} {operand : Pending} :
    (s.pendCast mark typeMark target signs operand).node.Formed s ↔
      IsCastSign signs ∧ operand.node.Formed s := by
  simp [Node.Formed, Scope.pendCast, Node.Built]

theorem Scope.pendCast_decides {mark typeMark : Mark} {target : TypeName}
    {signs : List (Mark × Operator)} {operand : Pending} (h : operand.Decides s) :
    (s.pendCast mark typeMark target signs operand).Decides s := by
  intro depth
  refine ((s.checkDepth_ends depth).mono (fun _ h => h) ?_).bind fun _ _ => ?_
  · rintro _ rfl he
    simp [tooDeep_isParse] at he
  refine ((s.checkSigns_ends depth signs).mono (fun _ h => h) ?_).bind fun _ _ => ?_
  · rintro _ (rfl | ⟨sign, hsign, hbar⟩) he
    · simp [tooDeep_isParse] at he
    · refine ⟨rfl, ?_⟩
      rw [Scope.pendCast_formed]
      exact fun hf => hf.1.ne_bar hsign hbar
  refine ((h _).mono (fun _ h => h) ?_).bind fun t ht => .pure ⟨rfl, ?_⟩
  · intro e he hparse
    refine ⟨rfl, ?_⟩
    rw [Scope.pendCast_formed]
    exact fun hf => (he hparse).2 hf.2
  · rw [Scope.pendCast_formed, ← ht.2]
    simp [Node.WellShaped, Node.Built]

theorem tokens_signs {signs : List (Mark × Operator)}
    (h : ps.map Pending.node = signs.map fun sign => .operator sign.1 sign.2) :
    s.tokens ps = signs.map fun sign => .op sign.2 := by
  have hmap : s.tokens ps = (ps.map Pending.node).map s.token := by
    simp [Scope.tokens]
  rw [hmap, h, List.map_map]
  rfl

theorem allFormed_signs {signs : List (Mark × Operator)}
    (h : ps.map Pending.node = signs.map fun sign => .operator sign.1 sign.2) : AllFormed s ps := by
  intro p hp
  have hmem := List.mem_map_of_mem (f := Pending.node) hp
  rw [h] at hmem
  obtain ⟨sign, -, hsign⟩ := List.mem_map.mp hmem
  rw [← hsign]
  exact .inl rfl

section

variable {e : Expects} {k : Nat} {c : Expects × Nat}

theorem takes_cons : s.Takes c (p :: ps) ↔ (p.node.isOperator = true ∨ p.node.Formed s) ∧
    ∃ c', move c (s.token p.node) = some c' ∧ s.Takes c' ps := by
  unfold Scope.Takes
  rw [tokens_cons, accepts_cons, allFormed_cons]
  constructor
  · rintro ⟨⟨c', hc', h⟩, hp, hps⟩
    exact ⟨hp, c', hc', h, hps⟩
  · rintro ⟨hp, c', hc', h, hps⟩
    exact ⟨⟨c', hc', h⟩, hp, hps⟩

theorem takes_item (htarget : s.castTarget? p.node = none) (hp : p.node.isOperator = false) :
    s.Takes (e, k) (p :: ps) ↔ e ≠ .operator ∧ p.node.Formed s ∧ s.Takes (.operator, k) ps := by
  unfold Scope.Takes
  rw [tokens_cons, token_item htarget hp, accepts_item, allFormed_cons, hp]
  simp only [Bool.false_eq_true, false_or, and_assoc, and_left_comm]

theorem takes_type (htarget : (s.castTarget? p.node).isSome) :
    s.Takes (e, k) (p :: ps) ↔ e ≠ .operator ∧ s.Takes (.castStart, k) ps := by
  unfold Scope.Takes
  rw [tokens_cons, token_type htarget, accepts_type, allFormed_cons]
  simp only [formed_of_castTarget htarget, or_true, true_and, and_assoc]

/-- A cast is taken in place of the type, the signs and the operand it is made of. -/
theorem takes_pendCast {target : TypeName} {signs : List (Mark × Operator)}
    {front after : List Pending} {operand : Pending} (htarget : (s.castTarget? p.node).isSome)
    (hsigns : front.map Pending.node = signs.map fun sign => .operator sign.1 sign.2)
    (hitem : s.castTarget? operand.node = none) (hoperand : operand.node.isOperator = false)
    (mark typeMark : Mark) :
    s.Takes c (p :: (front ++ operand :: after)) ↔
      s.Takes c (s.pendCast mark typeMark target signs operand :: after) := by
  obtain ⟨e, k⟩ := c
  rw [takes_type htarget, takes_item rfl rfl, Scope.pendCast_formed]
  refine and_congr_right fun _ => ?_
  unfold Scope.Takes
  rw [tokens_append, tokens_signs hsigns, tokens_cons, token_item hitem hoperand, accepts_castStart,
    allFormed_append, allFormed_cons, hoperand]
  simp only [allFormed_signs hsigns, Bool.false_eq_true, false_or, true_and, and_assoc,
    and_left_comm]

end

/-- Forming casts leaves items that the grammar takes where it took the block, and fails only if it
takes the block nowhere. -/
theorem Scope.casts_decides (hps : ∀ p ∈ ps, p.Decides s) :
    (s.casts ps).Ends
      (fun qs => (∀ q ∈ qs, q.Decides s ∧ s.castTarget? q.node = none) ∧
        ∀ c, s.Takes c ps ↔ s.Takes c qs)
      (fun _ => ∀ c, ¬ s.Takes c ps) := by
  induction ps with
  | nil => exact .pure ⟨by simp, fun _ => Iff.rfl⟩
  | cons p rest ih =>
    have hp := hps p List.mem_cons_self
    refine ((ih fun q hq => hps q (List.mem_cons_of_mem p hq)).mono (fun _ h => h) ?_).bind ?_
    · intro _ hrest c hc
      obtain ⟨-, c', -, hc'⟩ := takes_cons.mp hc
      exact hrest c' hc'
    rintro rest' ⟨hrest', hsame⟩
    have hcons : ∀ c, s.Takes c (p :: rest) ↔ s.Takes c (p :: rest') := by
      intro c
      simp only [takes_cons, hsame]
    simp only [hcons]
    cases htarget : s.castTarget? p.node with
    | none => exact .pure ⟨List.forall_mem_cons.mpr ⟨⟨hp, htarget⟩, hrest'⟩, fun _ => Iff.rfl⟩
    | some target =>
      have htype : (s.castTarget? p.node).isSome := by simp [htarget]
      obtain ⟨front, hfront, hsigns⟩ := leadingOperators_append rest'
      rcases hl : leadingOperators rest' with ⟨signs, _ | ⟨operand, after⟩⟩
      · rw [hl] at hfront hsigns
        refine .throw ?_
        rintro ⟨e, k⟩ hc
        have hcast := ((takes_type htype).mp hc).2.1
        rw [hfront, List.append_nil, tokens_signs hsigns] at hcast
        exact not_accepts_castStart hcast
      · have hoperand := leadingOperators_head (by rw [hl])
        rw [hl] at hfront hsigns
        subst hfront
        obtain ⟨-, hafter⟩ := List.forall_mem_append.mp hrest'
        obtain ⟨⟨hdecides, hitem⟩, hafter⟩ := List.forall_mem_cons.mp hafter
        refine (Arranging.Ends.newMark _).bind fun typeMark _ =>
          (Arranging.Ends.newMark _).bind fun mark _ => .pure ⟨?_, fun c => ?_⟩
        · exact List.forall_mem_cons.mpr ⟨⟨Scope.pendCast_decides hdecides, rfl⟩, hafter⟩
        · exact takes_pendCast htype hsigns hitem hoperand mark typeMark

/-! ## Products -/

/-- An item that stands for itself: it is finished to what it is, and is neither a type nor a
bar. -/
structure Pending.Flat (s : Scope) (p : Pending) : Prop where
  decides : p.Decides s
  target : s.castTarget? p.node = none
  noBar : p.node.operator? ≠ some .bar

theorem token_eq {n : Node} (h : s.castTarget? n = none) : s.token n = n.token := by
  simp [Scope.token, h]

theorem token_op {n : Node} {o : Operator} (h : n.operator? = some o) : s.token n = .op o := by
  cases n <;> simp_all [Scope.token, Scope.castTarget?, Node.token, Node.operator?]

private theorem joinsFactors_operator (h : p.joinsFactors = true) :
    ∃ op, p.node.operator? = some (.arith op) := by
  unfold Pending.joinsFactors at h
  split at h
  · rename_i o ho
    cases o with
    | arith op => exact ⟨op, ho⟩
    | bar => cases h
  · cases h

/-- A run is a single operator, or is read as one item is. -/
theorem productRuns_reads (hps : ∀ p ∈ ps, s.castTarget? p.node = none) :
    ∀ run ∈ productRuns ps, (∃ p, run = [p] ∧ p.node.isOperator = true) ∨
      ∀ e, reads e (s.tokens run) = e.next .item := by
  induction ps with
  | nil => simp [productRuns]
  | cons p rest ih =>
    have hrest := ih fun q hq => hps q (List.mem_cons_of_mem p hq)
    have hp := hps p List.mem_cons_self
    have hsingle : (∃ q, [p] = [q] ∧ q.node.isOperator = true) ∨
        ∀ e, reads e (s.tokens [p]) = e.next .item := by
      cases hop : p.node.isOperator with
      | true => exact .inl ⟨p, rfl, hop⟩
      | false =>
        refine .inr fun e => ?_
        rw [tokens_cons, token_item hp hop]
        simp [reads, Scope.tokens]
    intro run hrun
    unfold productRuns at hrun
    split at hrun
    · rename_i op q run' more hruns
      rw [hruns] at hrest
      split at hrun
      · rename_i hjoin
        rcases List.mem_cons.mp hrun with rfl | hrun
        · simp only [Bool.and_eq_true, Bool.not_eq_true'] at hjoin
          obtain ⟨⟨hfirst, hop⟩, hq⟩ := hjoin
          have htail : ∀ e, reads e (s.tokens (q :: run')) = e.next .item := by
            refine (hrest (q :: run') (by simp)).resolve_left ?_
            rintro ⟨r, hr, hr'⟩
            cases hr
            simp [hq] at hr'
          obtain ⟨o, ho⟩ := joinsFactors_operator hop
          refine .inr fun e => ?_
          rw [tokens_cons, token_item hp hfirst, tokens_cons, token_op ho, reads_cons]
          cases e <;> simp [Expects.next, reads_cons, htail]
        · exact hrest run (by simp [hrun])
      · rcases List.mem_cons.mp hrun with rfl | hrun
        · exact hsingle
        · exact hrest run hrun
    · rcases List.mem_cons.mp hrun with rfl | hrun
      · exact hsingle
      · exact hrest run hrun

/-- Nodes that are read as the items are, and are well shaped if the items are formed. -/
structure Finishes (s : Scope) (ps : List Pending) (ns : List Node) : Prop where
  reads_eq : ∀ e, reads e (ns.map Node.token) = reads e (s.tokens ps)
  formed : (∀ n ∈ ns, n.isOperator = true ∨ n.WellShaped) ↔ AllFormed s ps

theorem Finishes.append {ns ms : List Node} (h : Finishes s ps ns) (h' : Finishes s qs ms) :
    Finishes s (ps ++ qs) (ns ++ ms) := by
  refine ⟨fun e => ?_, ?_⟩
  · rw [List.map_append, reads_append, tokens_append, reads_append, h.reads_eq]
    refine Option.bind_congr fun e' _ => h'.reads_eq e'
  · rw [allFormed_append, ← h.formed, ← h'.formed]
    simp [or_imp, forall_and]

theorem Finishes.item {t : Node} (htarget : s.castTarget? p.node = none)
    (hoperator : t.operator? = p.node.operator?) (ht : t.WellShaped ↔ p.node.Formed s) :
    Finishes s [p] [t] := by
  refine ⟨fun e => ?_, ?_⟩
  · simp [Scope.tokens, token_eq htarget, Node.token, hoperator]
  · simp [AllFormed, Node.isOperator, hoperator, ht]

theorem finishes_items {items : List Node} (hps : ∀ p ∈ ps, s.castTarget? p.node = none)
    (h : List.Forall₂ (fun p t => t.operator? = p.node.operator? ∧ (t.WellShaped ↔ p.node.Formed s))
      ps items) : Finishes s ps items := by
  induction h with
  | nil => exact ⟨fun _ => rfl, by simp [AllFormed]⟩
  | cons hp _ ih =>
    have hitem := Finishes.item (hps _ List.mem_cons_self) hp.1 hp.2
    exact hitem.append (ih fun q hq => hps q (List.mem_cons_of_mem _ hq))

/-- A run that is read as one item is finishes to a block, if it is finished to its items. -/
theorem Finishes.block {items : List Node} (h : Finishes s ps items)
    (hps : ∀ e, reads e (s.tokens ps) = e.next .item) (mark : Mark) :
    Finishes s ps [.block mark items] := by
  have hblock : (Node.block mark items).WellShaped ↔ AllFormed s ps := by
    rw [Node.WellShaped, Node.built_block, h.reads_eq, hps]
    simp only [Expects.next, true_and]
    exact h.formed
  refine ⟨fun e => ?_, ?_⟩
  · rw [hps]
    simp [reads, Node.token, Node.operator?]
  · simpa [Node.isOperator, Node.operator?] using hblock

theorem finishes_pieces {many : Prop} {runs : List (List Pending)} {pieces : List (List Node)}
    (hruns : ∀ run ∈ runs, (∀ p ∈ run, s.castTarget? p.node = none) ∧
      ((∃ p, run = [p] ∧ p.node.isOperator = true) ∨ ∀ e, reads e (s.tokens run) = e.next .item))
    (h : List.Forall₂ (Piece
      (fun p t => t.operator? = p.node.operator? ∧ (t.WellShaped ↔ p.node.Formed s)) many)
      runs pieces) : Finishes s runs.flatten pieces.flatten := by
  induction h with
  | nil => exact ⟨fun _ => rfl, by simp [AllFormed]⟩
  | @cons run piece _ _ hpiece _ ih =>
    obtain ⟨htargets, hshape⟩ := hruns run List.mem_cons_self
    have hrest := ih fun r hr => hruns r (List.mem_cons_of_mem _ hr)
    obtain ⟨items, hitems, ⟨-, rfl⟩ | ⟨⟨-, hlong⟩, mark, rfl, -⟩⟩ := hpiece
    · exact (finishes_items htargets hitems).append hrest
    · rcases hshape with ⟨p, rfl, -⟩ | hshape
      · simp at hlong
      · exact ((finishes_items htargets hitems).block hshape mark).append hrest

/-- Grouping products keeps how the items of a block are read, and whether they are formed. -/
theorem finishProducts_decides (hps : ∀ p ∈ ps, p.Flat s) (depth : Nat) :
    (finishProducts depth ps).Ends (Finishes s ps)
      (fun e => e.isParse = true → ¬ AllFormed s ps) := by
  have hitems : ∀ p ∈ ps, (p.finish (itemDepth depth p.node)).Ends
      (fun t => t.operator? = p.node.operator? ∧ (t.WellShaped ↔ p.node.Formed s))
      (fun e => e.isParse = true → ¬ AllFormed s ps) := by
    intro p hp
    refine ((hps p hp).decides _).mono (fun _ h => h) fun e he hparse hall => ?_
    rcases hall p hp with hop | hformed
    · simp [(he hparse).1] at hop
    · exact (he hparse).2 hformed
  refine (finishProducts_ends hitems).mono ?_ fun _ he => he
  rintro _ ⟨pieces, rfl, hpieces⟩
  have htargets : ∀ p ∈ ps, s.castTarget? p.node = none := fun p hp => (hps p hp).target
  have hfinishes := finishes_pieces
    (fun run hrun => ⟨fun p hp => ?_, productRuns_reads htargets run hrun⟩) hpieces
  · rwa [productRuns_flatten] at hfinishes
  · refine htargets p ?_
    rw [← productRuns_flatten ps]
    exact List.mem_flatten.mpr ⟨run, hrun, hp⟩

/-! ## Bars -/

theorem type_not_mem_tokens (hps : ∀ p ∈ ps, s.castTarget? p.node = none) :
    .type ∉ s.tokens ps := by
  intro h
  obtain ⟨p, hp, htoken⟩ := List.mem_map.mp h
  rw [token_eq (hps p hp), Node.token] at htoken
  split at htoken <;> cases htoken

theorem bar_not_mem_tokens (hps : ∀ p ∈ ps, p.Flat s) : .op .bar ∉ s.tokens ps := by
  intro h
  obtain ⟨p, hp, htoken⟩ := List.mem_map.mp h
  rw [token_eq (hps p hp).target, Node.token] at htoken
  split at htoken
  · rename_i o ho
    cases htoken
    exact (hps p hp).noBar ho
  · cases htoken

theorem allFormed_congr (h : ∀ p, p ∈ ps ↔ p ∈ qs) : AllFormed s ps ↔ AllFormed s qs := by
  simp [AllFormed, h]

/-- Between bars an absolute value is formed if it holds a flat expression of formed items. -/
theorem absPending_formed {inner : List Pending} (hinner : ∀ p ∈ inner, p.Flat s) (k offset : Nat) :
    (absPending k offset inner).node.Formed s ↔
      reads .start (s.tokens inner) = some .operator ∧ AllFormed s inner := by
  have htokens : (inner.map Pending.node).map s.token = s.tokens inner := by
    simp [Scope.tokens]
  simp only [absPending, absNode, Node.Formed, Node.built_route]
  rw [← isExpr_iff_reads (bar_not_mem_tokens hinner), ← htokens]
  simp [Segment.args, Node.built_block, AllFormed, Node.Formed]

theorem absPending_flat {inner : List Pending} (hinner : ∀ p ∈ inner, p.Flat s) (k offset : Nat) :
    (absPending k offset inner).Flat s := by
  refine ⟨fun depth => ?_, rfl, by simp [absPending, absNode, Node.operator?]⟩
  refine ((finishProducts_decides hinner (depth + 1)).mono (fun _ h => h) ?_).bind fun ns hns => ?_
  · intro e he hparse
    refine ⟨rfl, ?_⟩
    rw [absPending_formed hinner]
    exact fun hf => he hparse hf.2
  · refine .pure ⟨rfl, ?_⟩
    rw [absPending_formed hinner, ← hns.reads_eq, ← hns.formed]
    simp [absNode, Node.WellShaped, Node.built_route, Segment.args, Node.built_block]

/-- The grammar accepts a block that has been read up to `rest`: outside the open bars something was
read that wants an operand, since the innermost bar something that the rest completes, and all items
are formed. -/
structure BarsRead (s : Scope) (spans : List (Nat × List Pending)) (before rest : List Pending) :
    Prop where
  completes : ∃ e, reads .start (s.tokens before.reverse) = some e ∧
    Accepts (e, spans.length) (s.tokens rest)
  outer : ∀ span ∈ spans, reads .start (s.tokens span.2.reverse) = some .start ∨
    reads .start (s.tokens span.2.reverse) = some .operand
  formed : AllFormed s (barItems spans before rest)

variable {spans : List (Nat × List Pending)} {before rest : List Pending}

theorem tokens_reverse_cons :
    s.tokens (p :: before).reverse = s.tokens before.reverse ++ [s.token p.node] := by
  simp [Scope.tokens]

/-- An item other than a bar is read. -/
theorem barsRead_pass (hp : s.token p.node ≠ .op .bar) :
    BarsRead s spans before (p :: rest) ↔ BarsRead s spans (p :: before) rest := by
  have hformed : AllFormed s (barItems spans before (p :: rest)) ↔
      AllFormed s (barItems spans (p :: before) rest) :=
    allFormed_congr fun q => (barItems_cons_perm spans before rest p).mem_iff
  constructor
  · rintro ⟨⟨e, he, h⟩, houter, hall⟩
    rw [tokens_cons] at h
    obtain ⟨e', he', h⟩ := (accepts_cons_of_ne hp).mp h
    refine ⟨⟨e', ?_, h⟩, houter, hformed.mp hall⟩
    rw [tokens_reverse_cons]
    exact reads_snoc.mpr ⟨e, he, he'⟩
  · rintro ⟨⟨e', he', h⟩, houter, hall⟩
    rw [tokens_reverse_cons] at he'
    obtain ⟨e, he, he'⟩ := reads_snoc.mp he'
    refine ⟨⟨e, he, ?_⟩, houter, hformed.mpr hall⟩
    rw [tokens_cons]
    exact (accepts_cons_of_ne hp).mpr ⟨e', he', h⟩

/-- Where a bar opens an absolute value, an operand is expected, and elsewhere an operator. -/
theorem barOpens_iff (hbefore : ∀ p ∈ before, p.Flat s) {e : Expects}
    (he : reads .start (s.tokens before.reverse) = some e) :
    (barOpens before = true → e = .start ∨ e = .operand) ∧
      (barOpens before = false → e = .operator) := by
  cases before with
  | nil =>
    cases he
    simp [barOpens]
  | cons p before =>
    rw [tokens_reverse_cons] at he
    obtain ⟨e₁, he₁, he⟩ := reads_snoc.mp he
    have hp := hbefore p List.mem_cons_self
    have hcast : e₁.inCast = false := reads_inCast (type_not_mem_tokens fun q hq =>
      (hbefore q (List.mem_cons_of_mem p (List.mem_reverse.mp hq))).target) rfl he₁
    cases hop : p.node.operator? with
    | none =>
      have hitem : s.token p.node = .item := token_item hp.target (by simp [Node.isOperator, hop])
      rw [hitem] at he
      obtain ⟨-, -, rfl⟩ | ⟨hne, -⟩ := next_cases (by simp) hcast he
      · simp [barOpens, Node.isOperator, hop]
      · exact (hne rfl).elim
    | some o =>
      rw [token_op hop] at he
      obtain ⟨hne, -⟩ | ⟨-, rfl⟩ := next_cases (by simp) hcast he
      · cases hne
      · simp [barOpens, Node.isOperator, hop]

/-- A bar opens an absolute value. -/
theorem barsRead_open (hp : p.node.operator? = some .bar) (hopens : barOpens before = true)
    (hbefore : ∀ p ∈ before, p.Flat s) (offset : Nat) :
    BarsRead s spans before (p :: rest) ↔ BarsRead s ((offset, before) :: spans) [] rest := by
  have hformed : AllFormed s (barItems spans before (p :: rest)) ↔
      AllFormed s (barItems ((offset, before) :: spans) [] rest) := by
    rw [allFormed_congr fun q => (barItems_cons_perm spans before rest p).mem_iff, allFormed_cons]
    simp [Node.isOperator, hp, barItems]
  constructor
  · rintro ⟨⟨e, he, h⟩, houter, hall⟩
    have hwants := (barOpens_iff hbefore he).1 hopens
    rw [tokens_cons, token_op hp, accepts_bar_open hwants] at h
    refine ⟨⟨.start, rfl, h⟩, ?_, hformed.mp hall⟩
    intro span hspan
    rcases List.mem_cons.mp hspan with rfl | hspan
    · simpa [he] using hwants
    · exact houter span hspan
  · rintro ⟨⟨e, he, h⟩, houter, hall⟩
    cases he
    have hbefore' := houter _ List.mem_cons_self
    obtain ⟨e, he, hwants⟩ : ∃ e, reads .start (s.tokens before.reverse) = some e ∧
        (e = .start ∨ e = .operand) := by
      rcases hbefore' with he | he
      · exact ⟨_, he, .inl rfl⟩
      · exact ⟨_, he, .inr rfl⟩
    refine ⟨⟨e, he, ?_⟩, fun span hspan => houter span (List.mem_cons_of_mem _ hspan),
      hformed.mpr hall⟩
    rw [tokens_cons, token_op hp, accepts_bar_open hwants]
    exact h

/-- A bar closes an absolute value. -/
theorem barsRead_close (hp : p.node.operator? = some .bar) (hcloses : barOpens before = false)
    (hbefore : ∀ p ∈ before, p.Flat s) {outer : List Pending} (houter : ∀ p ∈ outer, p.Flat s)
    (k offset : Nat) :
    BarsRead s ((offset, outer) :: spans) before (p :: rest) ↔
      BarsRead s spans (absPending k offset before.reverse :: outer) rest := by
  have hreverse : ∀ q ∈ before.reverse, q.Flat s := fun q hq => hbefore q (List.mem_reverse.mp hq)
  have habs := absPending_formed hreverse k offset
  have hitem : s.token (absPending k offset before.reverse).node = .item := token_item rfl rfl
  have hformed : AllFormed s (barItems ((offset, outer) :: spans) before (p :: rest)) ↔
      AllFormed s before.reverse ∧ AllFormed s (barItems spans outer rest) := by
    rw [allFormed_congr fun q => (barItems_cons_perm _ before rest p).mem_iff, allFormed_cons,
      allFormed_congr fun q => List.mem_reverse]
    simp [Node.isOperator, hp, barItems, allFormed_append]
  have hformed' : AllFormed s (barItems spans (absPending k offset before.reverse :: outer) rest) ↔
      (absPending k offset before.reverse).node.Formed s ∧
        AllFormed s (barItems spans outer rest) := by
    have hoperator : (absPending k offset before.reverse).node.isOperator = false := rfl
    have hitems : barItems spans (absPending k offset before.reverse :: outer) rest =
        absPending k offset before.reverse :: barItems spans outer rest := rfl
    rw [hitems, allFormed_cons, hoperator]
    simp
  constructor
  · rintro ⟨⟨e, he, h⟩, hspans, hall⟩
    cases (barOpens_iff hbefore he).2 hcloses
    rw [tokens_cons, token_op hp, accepts_bar_close] at h
    obtain ⟨k', hk', h⟩ := h
    cases hk'
    obtain ⟨hall, hrest⟩ := hformed.mp hall
    refine ⟨⟨.operator, ?_, h⟩, fun span hspan => hspans span (List.mem_cons_of_mem _ hspan),
      hformed'.mpr ⟨habs.mpr ⟨he, hall⟩, hrest⟩⟩
    rw [tokens_reverse_cons, hitem]
    rcases hspans _ List.mem_cons_self with hwants | hwants
    · exact reads_snoc.mpr ⟨_, hwants, rfl⟩
    · exact reads_snoc.mpr ⟨_, hwants, rfl⟩
  · rintro ⟨⟨e, he, h⟩, hspans, hall⟩
    rw [tokens_reverse_cons, hitem] at he
    obtain ⟨e₁, he₁, he⟩ := reads_snoc.mp he
    obtain ⟨habs', hrest⟩ := hformed'.mp hall
    obtain ⟨hbefore', hall⟩ := habs.mp habs'
    have hcast : e₁.inCast = false := reads_inCast (type_not_mem_tokens fun q hq =>
      (houter q (List.mem_reverse.mp hq)).target) rfl he₁
    obtain ⟨-, hwants, rfl⟩ | ⟨hne, -⟩ := next_cases (by simp) hcast he
    · refine ⟨⟨.operator, hbefore', ?_⟩, ?_, hformed.mpr ⟨hall, hrest⟩⟩
      · rw [tokens_cons, token_op hp, accepts_bar_close]
        exact ⟨_, rfl, h⟩
      · intro span hspan
        rcases List.mem_cons.mp hspan with rfl | hspan
        · cases e₁ with
          | start => exact .inl he₁
          | operand => exact .inr he₁
          | operator => exact (hwants rfl).elim
          | castStart => cases hcast
          | castOperand => cases hcast
        · exact hspans span hspan
    · exact (hne rfl).elim

/-- Replacing bars leaves a flat expression of formed items where the grammar accepts the block, and
finds fault only where it does not. -/
theorem Scope.bars_decides (hbefore : ∀ p ∈ before, p.Flat s)
    (hspans : ∀ span ∈ spans, ∀ p ∈ span.2, p.Flat s)
    (hrest : ∀ p ∈ rest, p.Decides s ∧ s.castTarget? p.node = none) (depth : Nat) :
    (s.bars depth spans before rest).Ends
      (fun qs => (∀ q ∈ qs, q.Flat s) ∧
        (BarsRead s spans before rest ↔
          reads .start (s.tokens qs) = some .operator ∧ AllFormed s qs))
      (fun e => e.isParse = true → ¬ BarsRead s spans before rest) := by
  induction rest generalizing spans before with
  | nil =>
    cases spans with
    | nil =>
      refine .pure ⟨fun q hq => hbefore q (List.mem_reverse.mp hq), ?_, ?_⟩
      · rintro ⟨⟨e, he, hclosed⟩, -, hall⟩
        obtain ⟨rfl, -⟩ := accepts_nil.mp hclosed
        refine ⟨he, (allFormed_congr fun q => ?_).mp hall⟩
        simp [barItems]
      · rintro ⟨he, hall⟩
        refine ⟨⟨.operator, he, accepts_nil.mpr ⟨rfl, rfl⟩⟩, by simp, ?_⟩
        refine (allFormed_congr fun q => ?_).mp hall
        simp [barItems]
    | cons span spans =>
      refine .throw fun _ h => ?_
      obtain ⟨e, -, hclosed⟩ := h.completes
      simp [Scope.tokens, accepts_nil] at hclosed
  | cons p rest ih =>
    obtain ⟨hp, htarget⟩ := hrest p List.mem_cons_self
    have hrest' := fun q hq => hrest q (List.mem_cons_of_mem p hq)
    unfold Scope.bars
    by_cases hbar : p.node.operator? = some .bar
    · rw [if_pos hbar]
      cases hopens : barOpens before with
      | true =>
        rw [if_pos rfl, barsRead_open hbar hopens hbefore p.node.offset]
        split
        · exact .throw fun hparse => by simp [tooDeep_isParse] at hparse
        · refine ih (by simp) ?_ hrest'
          intro span hspan
          rcases List.mem_cons.mp hspan with rfl | hspan
          · exact hbefore
          · exact hspans span hspan
      | false =>
        rw [if_neg (by simp)]
        cases spans with
        | nil =>
          refine .throw fun _ h => ?_
          obtain ⟨e, he, h⟩ := h.completes
          cases (barOpens_iff hbefore he).2 hopens
          rw [tokens_cons, token_op hbar, accepts_bar_close] at h
          obtain ⟨k', hk', -⟩ := h
          cases hk'
        | cons span spans =>
          obtain ⟨offset, outer⟩ := span
          have houter : ∀ q ∈ outer, q.Flat s := hspans _ List.mem_cons_self
          intro k
          rw [StateT.run_bind, absCall_run]
          rw [barsRead_close hbar hopens hbefore houter k]
          refine ih ?_ (fun span hspan => hspans span (List.mem_cons_of_mem _ hspan)) hrest' (k + 5)
          intro q hq
          rcases List.mem_cons.mp hq with rfl | hq
          · exact absPending_flat (fun r hr => hbefore r (List.mem_reverse.mp hr)) k offset
          · exact houter q hq
    · rw [if_neg hbar]
      have htoken : s.token p.node ≠ .op .bar := by
        intro htoken
        have hmem : .op .bar ∈ s.tokens [p] := by simp [Scope.tokens, htoken]
        exact bar_not_mem_tokens (by simpa using ⟨hp, htarget, hbar⟩) hmem
      rw [barsRead_pass htoken]
      refine ih ?_ hspans hrest'
      intro q hq
      rcases List.mem_cons.mp hq with rfl | hq
      · exact ⟨hp, htarget, hbar⟩
      · exact hbefore q hq

/-! ## Trees -/

private theorem barsRead_start : BarsRead s [] [] ps ↔ s.Takes (.start, 0) ps := by
  constructor
  · rintro ⟨⟨e, he, h⟩, -, hall⟩
    cases he
    exact ⟨h, hall⟩
  · rintro ⟨h, hall⟩
    exact ⟨⟨.start, rfl, h⟩, by simp, hall⟩

/-- Arranging a block decides whether it is an expression of formed items. -/
theorem Scope.finishBlock_decides (hps : ∀ p ∈ ps, p.Decides s) (depth : Nat) (mark : Mark) :
    (s.finishBlock depth mark ps).Ends
      (fun t => t.operator? = none ∧ (t.WellShaped ↔ s.Takes (.start, 0) ps))
      (fun e => e.isParse = true → ¬ s.Takes (.start, 0) ps) := by
  refine ((s.checkDepth_ends depth).mono (fun _ h => h) ?_).bind fun _ _ => ?_
  · rintro _ rfl he
    simp [tooDeep_isParse] at he
  refine ((Scope.casts_decides hps).mono (fun _ h => h) fun _ he _ => he _).bind ?_
  rintro qs ⟨hqs, hsame⟩
  rw [hsame, ← barsRead_start]
  refine (Scope.bars_decides (by simp) (by simp) hqs depth).bind ?_
  rintro rs ⟨hrs, hbars⟩
  rw [hbars]
  refine ((finishProducts_decides hrs depth).mono (fun _ h => h)
    fun e he hparse h => he hparse h.2).bind fun ns hns => .pure ⟨rfl, ?_⟩
  rw [Node.WellShaped, Node.built_block, hns.reads_eq, ← hns.formed]
  rfl

theorem finishArgs_decides (hps : ∀ p ∈ ps, p.Decides s) (depth : Nat) :
    (finishArgs depth ps).Ends
      (fun ns => (∀ n ∈ ns, n.WellShaped) ↔ ∀ p ∈ ps, p.node.Formed s)
      (fun e => e.isParse = true → ¬ ∀ p ∈ ps, p.node.Formed s) := by
  refine (finishAll_ends fun p hp => (hps p hp _).mono (fun _ h => h.2)
    fun e he hparse hall => (he hparse).2 (hall p hp)).mono ?_ fun _ he => he
  intro ns hns
  induction hns with
  | nil => simp
  | cons hn _ ih => simp [hn, ih fun q hq => hps q (List.mem_cons_of_mem _ hq)]

theorem finishSegments_decides {segments : List (Segment Pending)}
    (hps : ∀ segment ∈ segments, ∀ p ∈ segment.args, p.Decides s) (depth : Nat) :
    (finishSegments depth segments).Ends
      (fun ts => (∀ t ∈ ts, ∀ n ∈ t.args, n.WellShaped) ↔
        ∀ segment ∈ segments, ∀ p ∈ segment.args, p.node.Formed s)
      (fun e => e.isParse = true →
        ¬ ∀ segment ∈ segments, ∀ p ∈ segment.args, p.node.Formed s) := by
  induction segments with
  | nil => exact .pure (by simp)
  | cons segment rest ih =>
    have hargs := hps segment List.mem_cons_self
    refine ((ih fun t ht => hps t (List.mem_cons_of_mem _ ht)).mono (fun _ h => h)
      fun e he hparse hall => he hparse fun t ht => hall t (List.mem_cons_of_mem _ ht)).bind
      fun ts hts => ?_
    cases segment with
    | member mark name generics =>
      refine .pure ?_
      rw [List.forall_mem_cons, List.forall_mem_cons]
      exact and_congr (by simp [Segment.args]) hts
    | method mark name generics args =>
      refine ((finishArgs_decides hargs depth).mono (fun _ h => h)
        fun e he hparse hall => he hparse (hall _ List.mem_cons_self)).bind fun ns hns => .pure ?_
      rw [List.forall_mem_cons, List.forall_mem_cons]
      exact and_congr hns hts
    | indexer mark args =>
      refine ((finishArgs_decides hargs depth).mono (fun _ h => h)
        fun e he hparse hall => he hparse (hall _ List.mem_cons_self)).bind fun ns hns => .pure ?_
      rw [List.forall_mem_cons, List.forall_mem_cons]
      exact and_congr hns hts

end

namespace Node

/-- **Arranging decides the grammar**: a node is finished to a well-shaped one exactly if it is
formed, and parse errors tell that it is not. -/
theorem pend_decides (s : Scope) (n : Node) : (n.pend s).Decides s := by
  induction n using Node.induct with
  | block mark items ih =>
    intro depth
    have hitems : ∀ p ∈ items.map (pend s), p.Decides s := by simpa using ih
    have hformed : (block mark items).Formed s ↔ s.Takes (.start, 0) (items.map (pend s)) := by
      rw [Scope.Takes, ← isExpr_iff_accepts]
      simp [Formed, built_block, Scope.tokens, AllFormed, Function.comp_def]
    simp only [pend, pendAll_eq_map]
    rw [hformed]
    exact (Scope.finishBlock_decides hitems depth mark).mono (fun _ h => h)
      fun e he hparse => ⟨rfl, he hparse⟩
  | cast mark typeMark target signs operand ih =>
    simp only [pend]
    exact Scope.pendCast_decides ih
  | route mark head segments ih =>
    intro depth
    have hformed : (route mark head segments).Formed s ↔
        ∀ segment ∈ segments.map (Segment.map (pend s)), ∀ p ∈ segment.args, p.node.Formed s := by
      simp [Formed, built_route, Segment.args_map]
    simp only [pend, pendSegments_eq_map]
    rw [hformed]
    refine ((finishSegments_decides (forall_pend_args ih) depth).mono (fun _ h => h)
      fun e he hparse => ⟨rfl, he hparse⟩).bind fun ts hts => .pure ⟨rfl, ?_⟩
    rw [← hts, WellShaped, built_route]
  | constant | operator | unresolved =>
    simp only [pend]
    exact fun _ => .pure ⟨rfl, by simp [WellShaped, Formed, Built]⟩

end Node

end Formula
