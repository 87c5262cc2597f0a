import Formula.Proofs.BarFrame
import Formula.Proofs.Passes
import Formula.Registry.Standard

/-!
# Matching bars

Opening and closing bars look alike. A bar opens a span if nothing or an operator stands before it,
within the span around it, and closes that span otherwise. `BarPiece.MatchedAll` says that bars are
matched by this rule, of lists of items in which each span is one piece.

* `Scope.bars_ends`: the run over the items of a block, step by step: what has been read is made of
  matched pieces and of spans that are open.
* `Scope.bars_matched_iff`: bars are replaced exactly if they can be matched, the result is made of
  these pieces, and a failure names the bar that is at fault.
-/

namespace Formula

/-- Whether the item is a bar. -/
def Pending.isBar (p : Pending) : Bool := p.node.operator? = some .bar

/-- An item, or a span between two bars; `number` is that of the first node made for it. -/
inductive BarPiece where
  | item (p : Pending)
  | span (number : Nat) (opening : Pending) (inside : List BarPiece) (closing : Pending)

namespace BarPiece

mutual

/-- The items of a piece, with the bars around a span. -/
def items : BarPiece → List Pending
  | .item p => [p]
  | .span _ opening inside closing => opening :: (itemsAll inside ++ [closing])

/-- The items of pieces. -/
def itemsAll : List BarPiece → List Pending
  | [] => []
  | x :: xs => x.items ++ itemsAll xs

end

mutual

/-- What stands for a piece after bars are replaced: a span is a call of `System.Math.Abs`. -/
def pending : BarPiece → Pending
  | .item p => p
  | .span number opening inside _ => absPending number opening.node.offset (pendingAll inside)

/-- What stands for pieces. -/
def pendingAll : List BarPiece → List Pending
  | [] => []
  | x :: xs => x.pending :: pendingAll xs

end

/-- Whether the piece is an operator. -/
def isOperator : BarPiece → Bool
  | .item p => p.node.isOperator
  | .span .. => false

/-- Whether a bar behind the pieces opens a span, if one in front of them does. -/
def opensAfter (opens : Bool) : List BarPiece → Bool
  | [] => opens
  | x :: xs => opensAfter x.isOperator xs

mutual

/-- Bars are matched within a piece that stands where a bar opens a span or does not. -/
def Matched (opens : Bool) : BarPiece → Prop
  | .item p => p.isBar = false
  | .span _ opening inside closing =>
    opens = true ∧ opening.isBar = true ∧ MatchedAll true inside ∧ closing.isBar = true ∧
      opensAfter true inside = false

/-- Bars are matched within pieces, the first of which stands where a bar opens a span or does
not. -/
def MatchedAll (opens : Bool) : List BarPiece → Prop
  | [] => True
  | x :: xs => x.Matched opens ∧ MatchedAll x.isOperator xs

end

attribute [simp] items itemsAll pending pendingAll opensAfter Matched MatchedAll

/-! ## Lists of pieces -/

variable {x : BarPiece} {xs ys : List BarPiece} {opens : Bool}

@[simp] theorem itemsAll_append (xs ys : List BarPiece) :
    itemsAll (xs ++ ys) = itemsAll xs ++ itemsAll ys := by
  induction xs with
  | nil => rfl
  | cons x xs ih => simp [ih]

theorem pendingAll_eq_map (xs : List BarPiece) : pendingAll xs = xs.map pending := by
  induction xs with
  | nil => rfl
  | cons x xs ih => simp [ih]

private theorem pendingAll_reverse_snoc_item (xs : List BarPiece) (p : Pending) :
    (pendingAll (xs ++ [.item p])).reverse = p :: (pendingAll xs).reverse := by
  simp [pendingAll_eq_map]

private theorem pendingAll_reverse_snoc_span (xs inside : List BarPiece) (number : Nat)
    (opening closing : Pending) :
    (pendingAll (xs ++ [.span number opening inside closing])).reverse =
      absPending number opening.node.offset (pendingAll inside) :: (pendingAll xs).reverse := by
  simp [pendingAll_eq_map]

theorem isOperator_pending (x : BarPiece) : x.pending.node.isOperator = x.isOperator := by
  cases x <;> rfl

private theorem barOpens_append (xs : List BarPiece) (before : List Pending) :
    barOpens ((pendingAll xs).reverse ++ before) = opensAfter (barOpens before) xs := by
  induction xs generalizing before with
  | nil => rfl
  | cons x xs ih =>
    rw [pendingAll, List.reverse_cons, List.append_assoc, ih, opensAfter, ← isOperator_pending]
    rfl

theorem barOpens_reverse (xs : List BarPiece) :
    barOpens (pendingAll xs).reverse = opensAfter true xs := by
  rw [← List.append_nil (pendingAll xs).reverse, barOpens_append]
  rfl

private theorem matchedAll_append :
    MatchedAll opens (xs ++ ys) ↔ MatchedAll opens xs ∧ MatchedAll (opensAfter opens xs) ys := by
  induction xs generalizing opens with
  | nil => simp
  | cons x xs ih => simp [ih, and_assoc]

/-! ## The pieces inside of spans -/

private theorem isBar_pending (h : x.Matched opens) : x.pending.isBar = false := by
  cases x with
  | item p => exact h
  | span => rfl

theorem isBar_of_mem_pendingAll (h : MatchedAll opens xs) :
    ∀ q ∈ pendingAll xs, q.isBar = false := by
  induction xs generalizing opens with
  | nil => exact fun q hq => nomatch hq
  | cons x xs ih => exact List.forall_mem_cons.mpr ⟨isBar_pending h.1, ih h.2⟩

mutual

/-- The pieces inside of each span, however deep. -/
def interiors : BarPiece → List (List BarPiece)
  | .item _ => []
  | .span _ _ inside _ => inside :: interiorsAll inside

/-- The pieces inside of each span of a list. -/
def interiorsAll : List BarPiece → List (List BarPiece)
  | [] => []
  | x :: xs => x.interiors ++ interiorsAll xs

end

mutual

theorem Matched.interiors : ∀ {x : BarPiece} {opens : Bool}, x.Matched opens →
    ∀ inside ∈ x.interiors, MatchedAll true inside ∧ opensAfter true inside = false
  | .item _, _, _ => fun _ hmem => nomatch hmem
  | .span _ _ _ _, _, ⟨_, _, hinside, _, hcloses⟩ =>
    List.forall_mem_cons.mpr ⟨⟨hinside, hcloses⟩, MatchedAll.interiors hinside⟩

theorem MatchedAll.interiors : ∀ {xs : List BarPiece} {opens : Bool}, MatchedAll opens xs →
    ∀ inside ∈ interiorsAll xs, MatchedAll true inside ∧ opensAfter true inside = false
  | [], _, _ => fun _ hmem => nomatch hmem
  | _ :: _, _, ⟨hx, hxs⟩ =>
    List.forall_mem_append.mpr ⟨Matched.interiors hx, MatchedAll.interiors hxs⟩

end

/-- Items that can stand between two bars: there are some, none of them is a bar, and the last one
is an operand. -/
structure IsInterior (ps : List Pending) : Prop where
  ne_nil : ps ≠ []
  noBar : ∀ p ∈ ps, p.isBar = false
  endsInOperand : ∀ p ∈ ps.getLast?, p.node.isOperator = false

theorem isInterior_pendingAll (h : MatchedAll true xs) (hcloses : opensAfter true xs = false) :
    IsInterior (pendingAll xs) := by
  rw [← barOpens_reverse] at hcloses
  refine ⟨?_, isBar_of_mem_pendingAll h, ?_⟩
  · rintro hnil
    rw [hnil] at hcloses
    cases hcloses
  · rw [← List.head?_reverse]
    intro p hp
    generalize (pendingAll xs).reverse = before at hcloses hp
    cases before with
    | nil => cases hp
    | cons q before =>
      cases hp
      exact hcloses

end BarPiece

/-! ## Runs -/

/-- A span that is open: its opening bar, and the pieces before it in the span around it. -/
abbrev OpenSpan := Pending × List BarPiece

namespace OpenSpan

open BarPiece

/-- The items of open spans, innermost first, up to the innermost opening bar. -/
def itemsAll : List OpenSpan → List Pending
  | [] => []
  | (bar, outer) :: spans => itemsAll spans ++ (BarPiece.itemsAll outer ++ [bar])

/-- Open spans as they are kept while bars are replaced. -/
def pendingAll (spans : List OpenSpan) : List (Nat × List Pending) :=
  spans.map fun span => (span.1.node.offset, (BarPiece.pendingAll span.2).reverse)

/-- The opening bars of the spans stand where a bar opens a span. -/
def WellOpened (spans : List OpenSpan) : Prop :=
  ∀ span ∈ spans, span.1.isBar = true ∧ MatchedAll true span.2 ∧ opensAfter true span.2 = true

theorem length_le_countP {spans : List OpenSpan} (h : WellOpened spans) :
    spans.length ≤ (itemsAll spans).countP Pending.isBar := by
  induction spans with
  | nil => exact Nat.zero_le _
  | cons span spans ih =>
    obtain ⟨hspan, hspans⟩ := List.forall_mem_cons.mp h
    have hle := ih hspans
    simp only [itemsAll, List.countP_append, List.countP_singleton, hspan.1, if_true,
      List.length_cons]
    omega

end OpenSpan

open BarPiece in
/-- Why the bars among items cannot be matched. -/
inductive BarFault (ps : List Pending) : BuildError → Prop
  /-- A bar stands behind an operand where no span is open. -/
  | stray {pieces : List BarPiece} {bar : Pending} {rest : List Pending} :
    ps = itemsAll pieces ++ bar :: rest → MatchedAll true pieces → bar.isBar = true →
      opensAfter true pieces = false → BarFault ps (.parse bar.node.offset .strayBar)
  /-- A bar opens a span, and all bars behind it are matched with others. -/
  | unclosed {bar : Pending} {outer pieces : List BarPiece} {spans : List OpenSpan} :
    ps = OpenSpan.itemsAll ((bar, outer) :: spans) ++ itemsAll pieces →
      OpenSpan.WellOpened ((bar, outer) :: spans) → MatchedAll true pieces →
        BarFault ps (.parse bar.node.offset .unclosedBar)

namespace Scope

open BarPiece

variable {s : Scope} {depth : Nat}

/-- The run from a state in which `spans` are open and `pieces` follow the innermost opening bar. -/
theorem bars_ends {spans : List OpenSpan} {pieces : List BarPiece} {rest ps : List Pending}
    (hspans : OpenSpan.WellOpened spans) (hpieces : MatchedAll true pieces)
    (hps : ps = OpenSpan.itemsAll spans ++ (itemsAll pieces ++ rest)) :
    (s.bars depth (OpenSpan.pendingAll spans) (pendingAll pieces).reverse rest).Ends
      (fun qs => ∃ all, MatchedAll true all ∧ itemsAll all = ps ∧ pendingAll all = qs)
      (fun e => (e = s.tooDeep ∧ s.limit < depth + ps.countP Pending.isBar) ∨ BarFault ps e) := by
  induction rest generalizing spans pieces with
  | nil =>
    rw [List.append_nil] at hps
    cases spans with
    | nil => exact .pure ⟨pieces, hpieces, hps.symm, (List.reverse_reverse _).symm⟩
    | cons span spans => exact .throw (.inr (.unclosed hps hspans hpieces))
  | cons p rest ih =>
    rw [bars_cons, barOpens_reverse]
    by_cases hbar : p.node.operator? = some .bar
    · have hisBar : p.isBar = true := decide_eq_true hbar
      rw [if_pos hbar]
      cases hopens : opensAfter true pieces with
      | true =>
        rw [if_pos rfl]
        split
        · -- every open span has a bar, and this one is one more
          rename_i hlimit
          have hcount := OpenSpan.length_le_countP hspans
          rw [OpenSpan.pendingAll, List.length_map] at hlimit
          refine .throw (.inl ⟨rfl, ?_⟩)
          rw [hps, List.countP_append, List.countP_append, List.countP_cons, hisBar, if_pos rfl]
          omega
        · have hopened : OpenSpan.WellOpened ((p, pieces) :: spans) :=
            List.forall_mem_cons.mpr ⟨⟨hisBar, hpieces, hopens⟩, hspans⟩
          refine ih hopened (show MatchedAll true [] from trivial) ?_
          simp [hps, OpenSpan.itemsAll]
      | false =>
        rw [if_neg (by simp)]
        cases spans with
        | nil => exact .throw (.inr (.stray hps hpieces hisBar hopens))
        | cons span spans =>
          obtain ⟨bar, outer⟩ := span
          obtain ⟨⟨hopening, houter, houterOpens⟩, hspans⟩ := List.forall_mem_cons.mp hspans
          refine (absCall_ends bar.node.offset _).bind ?_
          rintro _ ⟨number, rfl⟩
          rw [List.reverse_reverse, ← pendingAll_reverse_snoc_span]
          refine ih hspans (matchedAll_append.mpr ⟨houter, ?_, trivial⟩) ?_
          · exact ⟨houterOpens, hopening, hpieces, hisBar, hopens⟩
          · simp [hps, OpenSpan.itemsAll]
    · have hisBar : p.isBar = false := decide_eq_false hbar
      rw [if_neg hbar, ← pendingAll_reverse_snoc_item]
      refine ih hspans (matchedAll_append.mpr ⟨hpieces, hisBar, trivial⟩) ?_
      simp [hps]

mutual

/-- The run over the items of a matched piece: one item more stands before the rest. -/
theorem bars_piece (s : Scope) (depth : Nat) : ∀ (x : BarPiece) (spans : List (Nat × List Pending))
    (before rest : List Pending) (k : Nat), x.Matched (barOpens before) →
    (s.bars depth spans before (x.items ++ rest)).run k = .error s.tooDeep ∨
      ∃ p k', p.node.isOperator = x.isOperator ∧
        (s.bars depth spans before (x.items ++ rest)).run k =
          (s.bars depth spans (p :: before) rest).run k'
  | .item p, spans, before, rest, k, h => by
    have hbar : ¬ p.node.operator? = some .bar := of_decide_eq_false h
    refine .inr ⟨p, k, rfl, ?_⟩
    rw [items, List.singleton_append, bars_cons, if_neg hbar]
  | .span number opening inside closing, spans, before, rest, k, h => by
    obtain ⟨hopens, hopening, hinside, hclosing, hcloses⟩ := h
    rw [items, List.cons_append, List.append_assoc, List.singleton_append, bars_cons,
      if_pos (of_decide_eq_true hopening), hopens, if_pos rfl]
    split
    · exact .inl rfl
    · rcases bars_pieces s depth inside ((opening.node.offset, before) :: spans) []
        (closing :: rest) k hinside with hdeep | ⟨done, k', hdone, hrun⟩
      · exact .inl hdeep
      · -- the closing bar stands behind an operand, and makes a call of what is done
        refine .inr ⟨absPending k' opening.node.offset (done ++ []).reverse, k' + 5, rfl, ?_⟩
        have hcloses : opensAfter (barOpens []) inside = false := hcloses
        rw [hrun, bars_cons, if_pos (of_decide_eq_true hclosing), hdone, hcloses]
        rfl

/-- The run over the items of matched pieces. -/
theorem bars_pieces (s : Scope) (depth : Nat) :
    ∀ (xs : List BarPiece) (spans : List (Nat × List Pending))
    (before rest : List Pending) (k : Nat), MatchedAll (barOpens before) xs →
    (s.bars depth spans before (itemsAll xs ++ rest)).run k = .error s.tooDeep ∨
      ∃ done k', barOpens (done ++ before) = opensAfter (barOpens before) xs ∧
        (s.bars depth spans before (itemsAll xs ++ rest)).run k =
          (s.bars depth spans (done ++ before) rest).run k'
  | [], spans, before, rest, k, _ => .inr ⟨[], k, rfl, rfl⟩
  | x :: xs, spans, before, rest, k, h => by
    obtain ⟨hx, hxs⟩ := h
    rw [itemsAll, List.append_assoc]
    rcases bars_piece s depth x spans before (itemsAll xs ++ rest) k hx
      with hdeep | ⟨p, k₁, hp, hrun⟩
    · exact .inl hdeep
    · rw [← hp] at hxs
      rw [hrun, opensAfter, ← hp]
      rcases bars_pieces s depth xs spans (p :: before) rest k₁ hxs
        with hdeep | ⟨done, k', hdone, hrun⟩
      · exact .inl hdeep
      · refine .inr ⟨done ++ [p], k', ?_, ?_⟩
        · rw [List.append_assoc]
          exact hdone
        · rw [List.append_assoc]
          exact hrun

end

private theorem not_barFault_tooDeep {ps : List Pending} : ¬ BarFault ps s.tooDeep := by
  intro h
  generalize he : s.tooDeep = e at h
  cases h <;> cases he

/-- **Bars are matched** by the rule that a bar opens a span if nothing or an operator stands before
it in the span around it, and closes that span otherwise. Wherever bars are replaced at all, and not
only if they nest too deep, they are replaced by the calls that this matching says; otherwise the
error is at a bar that closes nothing, or at one that is not closed. -/
theorem bars_matched_iff (s : Scope) (depth : Nat) (ps : List Pending) (k : Nat) :
    (depth + ps.countP Pending.isBar ≤ s.limit → (s.bars depth [] [] ps).run k ≠ .error s.tooDeep) ∧
    ((s.bars depth [] [] ps).run k ≠ .error s.tooDeep →
      ((∃ qs k', (s.bars depth [] [] ps).run k = .ok (qs, k')) ↔
        ∃ pieces, MatchedAll true pieces ∧ itemsAll pieces = ps) ∧
      (∀ qs k', (s.bars depth [] [] ps).run k = .ok (qs, k') →
        (∀ q ∈ qs, q.isBar = false) ∧
        ∃ pieces, pendingAll pieces = qs ∧ itemsAll pieces = ps ∧ MatchedAll true pieces ∧
          ∀ inside ∈ interiorsAll pieces, IsInterior (pendingAll inside)) ∧
      ∀ e, (s.bars depth [] [] ps).run k = .error e → BarFault ps e) := by
  have hstart : OpenSpan.WellOpened [] := fun _ hmem => nomatch hmem
  have hends : (s.bars depth [] [] ps).Ends _ _ :=
    bars_ends hstart (show MatchedAll true [] from trivial)
    (show ps = OpenSpan.itemsAll [] ++ (itemsAll [] ++ ps) from rfl)
  refine ⟨fun hlimit hdeep => ?_, fun hdeep => ⟨⟨?_, ?_⟩, ?_, ?_⟩⟩
  · rcases hends.error hdeep with ⟨-, hlt⟩ | hfault
    · omega
    · exact not_barFault_tooDeep hfault
  · rintro ⟨qs, k', hrun⟩
    obtain ⟨pieces, hmatched, hitems, -⟩ := hends.ok hrun
    exact ⟨pieces, hmatched, hitems⟩
  · rintro ⟨pieces, hmatched, rfl⟩
    have hrun := bars_pieces s depth pieces [] [] [] k hmatched
    rw [List.append_nil] at hrun
    rcases hrun with hrun | ⟨done, k', -, hrun⟩
    · exact absurd hrun hdeep
    · exact ⟨_, k', hrun⟩
  · intro qs k' hrun
    obtain ⟨pieces, hmatched, hitems, rfl⟩ := hends.ok hrun
    refine ⟨isBar_of_mem_pendingAll hmatched, pieces, rfl, hitems, hmatched, fun inside hmem => ?_⟩
    obtain ⟨hinside, hcloses⟩ := hmatched.interiors inside hmem
    exact isInterior_pendingAll hinside hcloses
  · intro e hrun
    rcases hends.error hrun with ⟨rfl, -⟩ | hfault
    · exact absurd hrun hdeep
    · exact hfault

/-- The bars of `||a|-|b||` are matched as two spans within one. -/
theorem bars_matched_iff_nested :
    let s : Scope := ⟨(Registry.standard []).host, ⟨none, []⟩, 6⟩
    let bar (offset : Nat) : Pending := Node.pend s (.operator ⟨offset, offset⟩ .bar)
    let name (offset : Nat) (x : String) : Pending :=
      Node.pend s (.route ⟨offset, offset⟩ .scope [.member ⟨offset + 9, offset⟩ x []])
    let minus : Pending := Node.pend s (.operator ⟨4, 4⟩ (.arith .sub))
    let ps := [bar 0, bar 1, name 2 "a", bar 3, minus, bar 5, name 6 "b", bar 7, bar 8]
    let inner := [absPending 18 1 [name 2 "a"], minus, absPending 23 5 [name 6 "b"]]
    (s.bars 0 [] [] ps).run 18 = .ok ([absPending 28 0 inner], 33) ∧
      (∃ pieces, MatchedAll true pieces ∧ itemsAll pieces = ps) ∧
      ∃ pieces, pendingAll pieces = [absPending 28 0 inner] ∧ itemsAll pieces = ps ∧
        ∀ inside ∈ interiorsAll pieces, IsInterior (pendingAll inside) := by
  intro s bar name minus ps inner
  obtain ⟨hdeep, hmatching⟩ := bars_matched_iff s 0 ps 18
  obtain ⟨hiff, hpieces, -⟩ := hmatching (hdeep (by decide))
  have hrun : (s.bars 0 [] [] ps).run 18 = .ok ([absPending 28 0 inner], 33) := rfl
  obtain ⟨-, pieces, hpending, hitems, -, hinteriors⟩ := hpieces _ _ hrun
  exact ⟨hrun, hiff.mp ⟨_, _, hrun⟩, pieces, hpending, hitems, hinteriors⟩

end Scope

end Formula
