import Formula.Proofs.Agreement
import Formula.Proofs.Deciding

/-!
# Arranging what stands between bars

The items between two bars are arranged as a block of their own is, one level further in: casts are
formed from the right, and a bar behind them is none (`Scope.casts_snoc`); bars are matched from the
left, and an opened span changes nothing but the level (`Scope.bars_within`).

`Node.arrange_bars`: if a block is arranged to a well-shaped one, the block between bars is arranged
to a single call of `System.Math.Abs` on it, up to marks, unless that nests too deep.
-/

namespace Formula

namespace Arranging

variable {α β : Type} {x : Arranging α} {k : Nat}

theorem run_bind_ok {f : α → Arranging β} {a : α} {k' : Nat} (h : x.run k = .ok (a, k')) :
    (x >>= f).run k = (f a).run k' := by
  rw [StateT.run_bind, h]
  rfl

theorem run_bind_error {e : BuildError} (h : x.run k = .error e) (f : α → Arranging β) :
    (x >>= f).run k = .error e := by
  rw [StateT.run_bind, h]
  rfl

end Arranging

section

variable {s : Scope} {bar : Pending} {mark : Mark} {op : Operator}

private theorem leadingOperators_snoc (hbar : bar.node = .operator mark op) (ps : List Pending) :
    leadingOperators (ps ++ [bar]) =
      match leadingOperators ps with
      | (signs, []) => (signs ++ [(mark, op)], [])
      | (signs, operand :: after) => (signs, operand :: (after ++ [bar])) := by
  induction ps with
  | nil => simp [leadingOperators, hbar]
  | cons p ps ih =>
    rw [List.cons_append, leadingOperators, leadingOperators, ih]
    split
    · rcases leadingOperators ps with ⟨signs, _ | ⟨operand, after⟩⟩ <;> rfl
    · rfl

/-- An operator behind the items of a block changes nothing about their casts. -/
theorem Scope.casts_snoc (hbar : bar.node = .operator mark op) (ps : List Pending) :
    s.casts (ps ++ [bar]) = do return (← s.casts ps) ++ [bar] := by
  have htarget : s.castTarget? bar.node = none := by rw [hbar]; rfl
  induction ps with
  | nil => simp [Scope.casts, htarget]
  | cons p ps ih =>
    simp only [List.cons_append, Scope.casts, ih, bind_assoc, pure_bind]
    refine bind_congr fun rest => ?_
    split
    · rfl
    · rw [leadingOperators_snoc hbar]
      rcases leadingOperators rest with ⟨signs, _ | ⟨operand, after⟩⟩
      · rfl
      · simp

theorem Scope.bars_cons (s : Scope) (depth : Nat) (spans : List (Nat × List Pending))
    (before : List Pending) (p : Pending) (rest : List Pending) :
    s.bars depth spans before (p :: rest) =
      if p.node.operator? = some .bar then
        if barOpens before then
          if s.limit ≤ depth + spans.length then throw s.tooDeep
          else s.bars depth ((p.node.offset, before) :: spans) [] rest
        else
          match spans with
          | [] => throw (.parse p.node.offset .strayBar)
          | (offset, outer) :: spans => do
            let call ← absCall offset before.reverse
            s.bars depth spans (call :: outer) rest
      else s.bars depth spans (p :: before) rest := rfl

/-- Within an open span bars are matched as they are without it, one level further in. Faults apart,
which the span may turn into others, this is so up to any point; what follows goes on from there. -/
theorem Scope.bars_within (s : Scope) (depth : Nat) (span : Nat × List Pending)
    (tail : List Pending) (spans : List (Nat × List Pending))
    (before rest : List Pending) (k : Nat) :
    Except.Unless (· ≠ s.tooDeep)
      ((s.bars (depth + 1) spans before rest >>= fun out =>
        s.bars depth [span] out.reverse tail).run k)
      ((s.bars depth (spans ++ [span]) before (rest ++ tail)).run k) := by
  induction rest generalizing spans before k with
  | nil =>
    cases spans with
    | nil =>
      simp only [Scope.bars, pure_bind, List.reverse_reverse]
      exact .refl _
    | cons inner spans => exact .error (by simp [Scope.tooDeep]) _
  | cons p rest ih =>
    rw [List.cons_append, Scope.bars_cons, Scope.bars_cons]
    by_cases hbar : p.node.operator? = some .bar
    · rw [if_pos hbar, if_pos hbar]
      cases hopens : barOpens before with
      | true =>
        have hlength : depth + (spans ++ [span]).length = depth + 1 + spans.length := by
          rw [List.length_append, List.length_singleton]
          omega
        rw [if_pos rfl, if_pos rfl, hlength]
        split
        · exact .refl _
        · exact ih _ _ k
      | false =>
        rw [if_neg (by simp), if_neg (by simp)]
        cases spans with
        | nil => exact .error (by simp [Scope.tooDeep]) _
        | cons inner spans => exact ih _ _ (k + 5)
    · rw [if_neg hbar, if_neg hbar]
      exact ih _ _ k

/-- A block of one item is finished by finishing the item. -/
theorem finishProducts_single (depth : Nat) (p : Pending) :
    finishProducts depth [p] = do return [← p.finish (itemDepth depth p.node)] := by
  simp [finishProducts, productRuns, markRuns, finishRuns, finishItems, finishAll]

end

/-! ## A block between bars -/

variable {s : Scope}

/-- Behind the items of a well-shaped block no bar opens a span. -/
theorem barOpens_of_wellShaped {ps rs qs : List Pending} {ns : List Node} {k k₁ k₂ k₃ : Nat}
    {depth : Nat} {mark : Mark} (hps : ∀ p ∈ ps, p.Decides s)
    (hcasts : (s.casts ps).run k = .ok (rs, k₁))
    (hbars : (s.bars depth [] [] rs).run k₁ = .ok (qs, k₂))
    (hproducts : (finishProducts depth qs).run k₂ = .ok (ns, k₃))
    (hshape : (Node.block mark ns).WellShaped) : barOpens qs.reverse = false := by
  have hrs := ((Scope.casts_decides hps).ok hcasts).1
  have hqs := ((Scope.bars_decides (by simp) (by simp) hrs depth).ok hbars).1
  have hfinishes := (finishProducts_decides hqs depth).ok hproducts
  rw [Node.WellShaped, Node.built_block, hfinishes.reads_eq] at hshape
  have hreads := hshape.1
  rw [← List.reverse_reverse qs] at hreads
  refine Bool.eq_false_iff.mpr fun hopens => ?_
  have hstart := (barOpens_iff (fun p hp => hqs p (List.mem_reverse.mp hp)) hreads).1 hopens
  simp at hstart

/-- The passes over a block between bars. -/
theorem Scope.finishBlock_bars {opening closing : Pending} {m₁ m₂ : Mark}
    (hopening : opening.node = .operator m₁ .bar) (hclosing : closing.node = .operator m₂ .bar)
    (mark : Mark) (ps : List Pending) :
    s.finishBlock 0 mark (opening :: (ps ++ [closing])) = do
      let items ← s.casts ps
      let items ← s.bars 0 [] [] (opening :: (items ++ [closing]))
      return .block mark (← finishProducts 0 items) := by
  have htarget : s.castTarget? opening.node = none := by rw [hopening]; rfl
  simp [Scope.finishBlock, Scope.checkDepth, Scope.casts, Scope.casts_snoc hclosing, htarget]

/-- The opening bar of a block opens a span, unless no nesting is allowed. -/
theorem Scope.bars_opening (s : Scope) {opening : Pending}
    (hopening : opening.node.operator? = some .bar) (rest : List Pending) :
    s.bars 0 [] [] (opening :: rest) = throw s.tooDeep ∨
      s.bars 0 [] [] (opening :: rest) = s.bars 0 [(opening.node.offset, [])] [] rest := by
  rw [Scope.bars_cons, if_pos hopening, if_pos (show barOpens [] = true from rfl)]
  split
  · exact .inl rfl
  · exact .inr rfl

/-- The items between two bars become one call, if the closing bar closes the span. -/
theorem Scope.bars_span {opening closing : Pending} (hopening : opening.node.operator? = some .bar)
    (hclosing : closing.node.operator? = some .bar) {rs qs : List Pending} {k k' : Nat}
    (h : (s.bars 1 [] [] rs).run k = .ok (qs, k')) (hcloses : barOpens qs.reverse = false) :
    (s.bars 0 [] [] (opening :: (rs ++ [closing]))).run k = .error s.tooDeep ∨
      (s.bars 0 [] [] (opening :: (rs ++ [closing]))).run k =
        .ok ([absPending k' opening.node.offset qs], k' + 5) := by
  have hend : (s.bars 0 [(opening.node.offset, [])] qs.reverse [closing]).run k' =
      .ok ([absPending k' opening.node.offset qs], k' + 5) := by
    rw [Scope.bars_cons, if_pos hclosing, hcloses, if_neg (by simp), List.reverse_reverse]
    rfl
  rcases s.bars_opening hopening (rs ++ [closing]) with hopen | hopen
  · exact .inl (by rw [hopen]; rfl)
  · rw [hopen]
    refine .inr ((s.bars_within 0 _ [closing] [] [] rs k).ok ?_)
    rw [Arranging.run_bind_ok h, hend]

theorem Scope.bars_span_tooDeep {opening : Pending} (hopening : opening.node.operator? = some .bar)
    {rs : List Pending} (tail : List Pending) {k : Nat}
    (h : (s.bars 1 [] [] rs).run k = .error s.tooDeep) :
    (s.bars 0 [] [] (opening :: (rs ++ tail))).run k = .error s.tooDeep := by
  rcases s.bars_opening hopening (rs ++ tail) with hopen | hopen
  · rw [hopen]
    rfl
  · rw [hopen]
    exact (s.bars_within 0 _ tail [] [] rs k).error_of (Arranging.run_bind_error h _)
      (not_not.mpr rfl)

/-- **A block between bars** is arranged to a call on the block, unless that nests too deep. -/
theorem Node.arrange_bars {m : Mark} {items : List Node} {t : Node} {n n' : Nat}
    (h : ((Node.block m items).arrange s).run n = .ok (t, n')) (hshape : t.WellShaped)
    {items' : List Node} (hitems : items'.map unmarked = items.map unmarked)
    (m₀ m₁ m₂ : Mark) (k : Nat) :
    (∃ j offset inner k', (Node.block ⟨j, offset⟩ inner).Agrees False t ∧
      ((Node.block m₀ (.operator m₁ .bar :: items' ++ [.operator m₂ .bar])).arrange s).run k =
        .ok (.block m₀ [absNode j offset inner], k')) ∨
      ((Node.block m₀ (.operator m₁ .bar :: items' ++ [.operator m₂ .bar])).arrange s).run k =
        .error s.tooDeep := by
  -- the items with and without bars, one level apart, are arranged in step
  have F : s.Follows False (· = s.tooDeep) (fun _ => True) s :=
    ⟨Nat.le_refl _, fun _ => rfl, fun _ => rfl⟩
  have hlevel : LevelAgrees False 1 0 := ⟨Nat.zero_le 1, False.elim⟩
  have hpend : AgreeAll False (· = s.tooDeep) (items'.map (pend s)) (items.map (pend s)) :=
    Scope.Follows.pendAll (forall₂_agrees.mpr ⟨hitems.symm, False.elim⟩)
      fun _ _ _ hnn' => F.pend hnn' fun _ _ => trivial
  let opening := pend s (.operator m₁ .bar)
  let closing := pend s (.operator m₂ .bar)
  have hblock : (Node.block m₀ (.operator m₁ .bar :: items' ++ [.operator m₂ .bar])).arrange s = do
      let items ← s.casts (items'.map (pend s))
      let items ← s.bars 0 [] [] (opening :: (items ++ [closing]))
      return .block m₀ (← finishProducts 0 items) := by
    rw [← Scope.finishBlock_bars rfl rfl]
    simp [arrange, pend, pendAll_eq_map, opening, closing]
  simp only [arrange, pend, pendAll_eq_map] at h
  obtain ⟨ps, k₁, qs, k₂, ns, h₁, h₂, h₃, rfl⟩ := Scope.finishBlock_ok h
  have hcloses : barOpens qs.reverse = false :=
    barOpens_of_wellShaped (by simpa using fun n _ => n.pend_decides s) h₁ h₂ h₃ hshape
  have hopening : opening.node.operator? = some .bar := rfl
  have hclosing : closing.node.operator? = some .bar := rfl
  rw [hblock]
  rcases (F.casts hpend fun _ _ _ _ => trivial).of_ok h₁ k with
    ⟨ps', l₁, hcasts, hps⟩ | ⟨e, hcasts, rfl⟩
  rotate_left
  · exact .inr (Arranging.run_bind_error hcasts _)
  rw [Arranging.run_bind_ok hcasts]
  rcases (F.bars .nil .nil hps hlevel).of_ok h₂ l₁ with ⟨qs', l₂, hbars, hqs⟩ | ⟨e, hbars, rfl⟩
  rotate_left
  · exact .inr (Arranging.run_bind_error (Scope.bars_span_tooDeep hopening [closing] hbars) _)
  rw [barOpens_agree (List.rel_reverse hqs)] at hcloses
  rcases Scope.bars_span hopening hclosing hbars hcloses with hspan | hspan
  · exact .inr (Arranging.run_bind_error hspan _)
  have hcall :
      (do return Node.block m₀ (← finishProducts 0 [absPending l₂ opening.node.offset qs'])) = do
      return .block m₀ [absNode l₂ opening.node.offset (← finishProducts 1 qs')] := by
    simp [finishProducts_single, absPending, absNode, itemDepth, isBlock]
  rw [Arranging.run_bind_ok hspan, hcall]
  rcases (finishProducts_agree hqs hlevel).of_ok h₃ (l₂ + 5) with
    ⟨inner, l₃, hinner, hagree⟩ | ⟨e, hinner, rfl⟩
  · refine .inl ⟨l₂, opening.node.offset, inner, l₃, ?_, ?_⟩
    · exact Agrees.block_iff.mpr ⟨m, ns, rfl, False.elim, hagree⟩
    · rw [Arranging.run_bind_ok hinner]
      rfl
  · exact .inr (Arranging.run_bind_error hinner _)

end Formula
