import Formula.Proofs.Marks
import Formula.Proofs.ProductRuns

/-!
# Arranging two trees

Two trees may be arranged in two scopes `s` and `s'`. `s.Follows s'` if the same blocks are casts in
both and `s` allows at most as many levels of nesting. Then arranging in `s` ends as it does in
`s'`, unless it exceeds the bound of `s`. The trees may be the same (`Scope.Follows.arrange`), or
the same up to their marks only, at levels of nesting and with counts of nodes that differ. The
first is the `strict` case.

`Arranging.Agrees strict E R x y`: `x` ends as `y` does, with results that have `R`, unless it fails
with an error with `E`. Items that wait agree if they are agreeing nodes and their work agrees, so
the passes go through them in step.
-/

namespace Formula

namespace Arranging

variable {α β γ δ : Type} {strict : Prop} {E : BuildError → Prop} {R : α → β → Prop}
  {R' : γ → δ → Prop}

/-- `x` ends as `y` does, unless it fails with an error with `E`. If `strict`, the two start from
one count, and end with the same count or the same error. -/
def Agrees (strict : Prop) (E : BuildError → Prop) (R : α → β → Prop) (x : Arranging α)
    (y : Arranging β) : Prop :=
  ∀ k l, (strict → l = k) → match x.run k with
    | .ok (a, k') => ∃ b l', y.run l = .ok (b, l') ∧ (strict → l' = k') ∧ R a b
    | .error e => E e ∨ ∃ e', y.run l = .error e' ∧ (strict → e' = e)

namespace Agrees

theorem pure {a : α} {b : β} (h : R a b) : Agrees strict E R (pure a) (pure b) :=
  fun _ l hl => ⟨b, l, rfl, hl, h⟩

theorem excuse {e : BuildError} (h : E e) (y : Arranging β) :
    Agrees strict E R (throw e : Arranging α) y :=
  fun _ _ _ => .inl h

theorem throw {e e' : BuildError} (h : strict → e' = e) :
    Agrees strict E R (throw e : Arranging α) (throw e' : Arranging β) :=
  fun _ _ _ => .inr ⟨e', rfl, h⟩

theorem newMark {offset offset' : Nat} (h : strict → offset' = offset) :
    Agrees strict E (fun mark mark' => strict → mark' = mark) (newMark offset)
      (newMark offset') := by
  refine fun k l hl => ⟨⟨l, offset'⟩, l + 1, rfl, fun hs => by rw [hl hs], fun hs => ?_⟩
  rw [hl hs, h hs]

theorem bind {x : Arranging α} {y : Arranging β} {f : α → Arranging γ} {g : β → Arranging δ}
    (h : Agrees strict E R x y) (hf : ∀ a b, R a b → Agrees strict E R' (f a) (g b)) :
    Agrees strict E R' (x >>= f) (y >>= g) := by
  intro k l hl
  have hx := h k l hl
  rw [StateT.run_bind, StateT.run_bind]
  rcases hrun : x.run k with e | ⟨a, k'⟩
  · rw [hrun] at hx
    rcases hx with he | ⟨e', hy, he'⟩
    · exact .inl he
    · rw [hy]
      exact .inr ⟨e', rfl, he'⟩
  · rw [hrun] at hx
    obtain ⟨b, l', hy, hl', hab⟩ := hx
    rw [hy]
    exact hf a b hab k' l' hl'

/-- From the same count the outcomes are the same, but for the errors that are excused. -/
theorem outcome {R : α → α → Prop} {x y : Arranging α} (h : Agrees True E R x y)
    (hR : ∀ a b, R a b → b = a) (k : Nat) : Except.Unless E (x.run k) (y.run k) := by
  have hx := h k k fun _ => rfl
  rcases hrun : x.run k with e | ⟨a, k'⟩
  · rw [hrun] at hx
    rcases hx with he | ⟨e', hy, he'⟩
    · exact .error he _
    · rw [hy, he' trivial]
      exact .refl _
  · rw [hrun] at hx
    obtain ⟨b, l', hy, hl', hab⟩ := hx
    rw [hy, hl' trivial, hR a b hab]
    exact .refl _

/-- If `y` succeeds from some count, `x` does from any, or it fails with an error that is
excused. -/
theorem of_ok {x : Arranging α} {y : Arranging β} (h : Agrees False E R x y) {b : β} {l l' : Nat}
    (hy : y.run l = .ok (b, l')) (k : Nat) :
    (∃ a k', x.run k = .ok (a, k') ∧ R a b) ∨ ∃ e, x.run k = .error e ∧ E e := by
  have hx := h k l False.elim
  rcases hrun : x.run k with e | ⟨a, k'⟩
  · rw [hrun] at hx
    rcases hx with he | ⟨e', hy', -⟩
    · exact .inr ⟨e, rfl, he⟩
    · cases hy.symm.trans hy'
  · rw [hrun] at hx
    obtain ⟨b', l'', hy', -, hR⟩ := hx
    cases hy.symm.trans hy'
    exact .inl ⟨a, k', rfl, hR⟩

end Agrees

end Arranging

variable {strict : Prop}

/-! ## Nodes and runs -/

/-- A level of nesting that is at most as deep, and the same if `strict`. -/
structure LevelAgrees (strict : Prop) (d d' : Nat) : Prop where
  le : d' ≤ d
  eq (hs : strict) : d' = d

theorem LevelAgrees.succ {d d' : Nat} (h : LevelAgrees strict d d') :
    LevelAgrees strict (d + 1) (d' + 1) :=
  ⟨Nat.succ_le_succ h.le, fun hs => by rw [h.eq hs]⟩

theorem LevelAgrees.itemDepth {d d' : Nat} (h : LevelAgrees strict d d') {n n' : Node}
    (hn : n.Agrees strict n') : LevelAgrees strict (itemDepth d n) (itemDepth d' n') := by
  rw [Formula.itemDepth, Formula.itemDepth, hn.isBlock_eq]
  split
  · exact h.succ
  · exact h

/-- Nodes that agree, with work that agrees. -/
structure Pending.Agrees (strict : Prop) (E : BuildError → Prop) (p q : Pending) : Prop where
  node : p.node.Agrees strict q.node
  finish {d d' : Nat} (hd : LevelAgrees strict d d') :
    Arranging.Agrees strict E (Node.Agrees strict) (p.finish d) (q.finish d')

/-- Items that agree one by one. -/
abbrev AgreeAll (strict : Prop) (E : BuildError → Prop) : List Pending → List Pending → Prop :=
  List.Forall₂ (Pending.Agrees strict E)

variable {E : BuildError → Prop} {N : String → Prop} {s s' : Scope}
  {ps qs : List Pending} {d d' : Nat}

theorem finishAll_agrees {level level' : Node → Nat}
    (hlevel : ∀ {n n' : Node}, n.Agrees strict n' → LevelAgrees strict (level n) (level' n'))
    (h : AgreeAll strict E ps qs) :
    Arranging.Agrees strict E (List.Forall₂ (Node.Agrees strict)) (finishAll level ps)
      (finishAll level' qs) := by
  induction h with
  | nil => exact .pure .nil
  | cons hp _ ih =>
    refine ih.bind fun rest rest' hrest => ?_
    exact (hp.finish (hlevel hp.node)).bind fun n n' hn => .pure (.cons hn hrest)

theorem productRuns_agree (h : AgreeAll strict E ps qs) :
    List.Forall₂ (AgreeAll strict E) (productRuns ps) (productRuns qs) :=
  productRuns_forall₂ (fun _ _ h => h.node.operator?_eq) h

/-- Runs that are both marked or both not, whose items agree. -/
abbrev RunAgrees (strict : Prop) (E : BuildError → Prop)
    (run run' : Option Mark × List Pending) : Prop :=
  Option.Rel (fun mark mark' => strict → mark' = mark) run.1 run'.1 ∧ AgreeAll strict E run.2 run'.2

private theorem markRun_agrees {run run' : List Pending} (h : AgreeAll strict E run run') :
    Arranging.Agrees strict E (RunAgrees strict E) (markRun run) (markRun run') := by
  rcases h with _ | ⟨hp, _ | ⟨hq, hrun⟩⟩
  · exact .pure ⟨.none, .nil⟩
  · exact .pure ⟨.none, .cons hp .nil⟩
  · refine (Arranging.Agrees.newMark hp.node.offset_eq).bind fun mark mark' hmark => ?_
    exact .pure ⟨.some hmark, .cons hp (.cons hq hrun)⟩

theorem markRuns_agree {runs runs' : List (List Pending)}
    (h : List.Forall₂ (AgreeAll strict E) runs runs') :
    Arranging.Agrees strict E (List.Forall₂ (RunAgrees strict E)) (markRuns runs)
      (markRuns runs') := by
  unfold markRuns
  rw [← h.length_eq]
  split
  · refine .pure (List.forall₂_map_left_iff.mpr (List.forall₂_map_right_iff.mpr ?_))
    exact h.imp fun _ _ hrun => ⟨.none, hrun⟩
  · rename_i hmany
    clear hmany
    induction h with
    | nil => exact .pure .nil
    | cons hrun _ ih =>
      rw [List.mapM_cons, List.mapM_cons]
      refine (markRun_agrees hrun).bind fun marked marked' hmarked => ?_
      exact ih.bind fun more more' hmore => .pure (.cons hmarked hmore)

theorem finishRuns_agree {marked marked' : List (Option Mark × List Pending)}
    (h : List.Forall₂ (RunAgrees strict E) marked marked') (hd : LevelAgrees strict d d') :
    Arranging.Agrees strict E (List.Forall₂ (Node.Agrees strict)) (finishRuns d marked)
      (finishRuns d' marked') := by
  induction h with
  | nil => exact .pure .nil
  | @cons run run' _ _ hrun _ ih =>
    obtain ⟨mark, run⟩ := run
    obtain ⟨mark', run'⟩ := run'
    obtain ⟨hmark, hrun⟩ := hrun
    refine ih.bind fun rest rest' hrest => ?_
    refine (finishAll_agrees hd.itemDepth hrun).bind fun items items' hitems => ?_
    cases hmark with
    | none => exact .pure (List.rel_append hitems hrest)
    | some hmark => exact .pure (.cons (Node.Agrees.block_iff.mpr ⟨_, _, rfl, hmark, hitems⟩) hrest)

theorem finishProducts_agree (h : AgreeAll strict E ps qs) (hd : LevelAgrees strict d d') :
    Arranging.Agrees strict E (List.Forall₂ (Node.Agrees strict)) (finishProducts d ps)
      (finishProducts d' qs) :=
  (markRuns_agree (productRuns_agree h)).bind fun _ _ hmarked => finishRuns_agree hmarked hd

theorem leadingOperators_agree (h : AgreeAll strict E ps qs) :
    List.Forall₂ (SignAgrees strict) (leadingOperators ps).1 (leadingOperators qs).1 ∧
      AgreeAll strict E (leadingOperators ps).2 (leadingOperators qs).2 := by
  induction h with
  | nil => exact ⟨.nil, .nil⟩
  | @cons p q ps qs hp hrest ih =>
    have hnode := hp.node
    unfold leadingOperators
    cases hn : p.node with
    | operator mark op =>
      rw [hn] at hnode
      obtain ⟨mark', hq, hmark⟩ := Node.Agrees.operator_iff.mp hnode
      rw [hq]
      exact ⟨.cons ⟨rfl, fun hs => by rw [hmark hs]⟩ ih.1, ih.2⟩
    | _ =>
      rw [hn] at hnode
      cases hq : q.node with
      | operator mark' op =>
        rw [hq] at hnode
        cases hnode.operator?_eq
      | _ => exact ⟨.nil, .cons hp hrest⟩

/-- Bars open a span behind the same items. -/
theorem barOpens_agree (h : AgreeAll strict E ps qs) : barOpens qs = barOpens ps := by
  cases h with
  | nil => rfl
  | cons hp _ => rw [barOpens, barOpens, hp.node.isOperator_eq]

/-! ## Scopes -/

/-- The blocks whose heads have `N` are casts in both scopes or in none, and `s` allows at most as
many levels as `s'`. To exceed them is excused, unless `strict` and the bounds are the same. -/
structure Scope.Follows (strict : Prop) (E : BuildError → Prop) (N : String → Prop) (s s' : Scope) :
    Prop where
  limit_le : s.limit ≤ s'.limit
  excused : ¬ (strict ∧ s'.limit = s.limit) → E s.tooDeep
  castTarget?_eq {n : Node} : (∀ name ∈ n.heads, N name) → s'.castTarget? n = s.castTarget? n

namespace Scope.Follows

variable (F : s.Follows strict E N s')

include F

/-- What is checked against the bounds at levels that agree. -/
theorem bounded {α β : Type} {R : α → β → Prop} {P P' : Prop} [Decidable P] [Decidable P']
    {x : Arranging α} {y : Arranging β} (hle : P' → P)
    (heq : strict → s'.limit = s.limit → P → P') (h : Arranging.Agrees strict E R x y) :
    Arranging.Agrees strict E R (if P then throw s.tooDeep else x)
      (if P' then throw s'.tooDeep else y) := by
  by_cases hP : P
  · rw [if_pos hP]
    by_cases hsame : strict ∧ s'.limit = s.limit
    · rw [if_pos (heq hsame.1 hsame.2 hP)]
      exact .throw fun _ => by rw [Scope.tooDeep, Scope.tooDeep, hsame.2]
    · exact .excuse (F.excused hsame) _
  · rw [if_neg hP, if_neg fun hP' => hP (hle hP')]
    exact h

theorem checkDepth (hd : LevelAgrees strict d d') :
    Arranging.Agrees strict E (fun _ _ => True) (s.checkDepth d) (s'.checkDepth d') := by
  have hlimit := F.limit_le
  have hle := hd.le
  refine F.bounded (by omega) (fun hs hsame => ?_) (.pure trivial)
  have := hd.eq hs
  omega

theorem checkSigns {signs signs' : List (Mark × Operator)} (hd : LevelAgrees strict d d')
    (h : List.Forall₂ (SignAgrees strict) signs signs') :
    Arranging.Agrees strict E (fun _ _ => True) (s.checkSigns d signs)
      (s'.checkSigns d' signs') := by
  have hhead : ∀ {xs ys : List (Mark × Operator)}, List.Forall₂ (SignAgrees strict) xs ys →
      Option.Rel (SignAgrees strict) xs.head? ys.head? := by
    rintro _ _ (_ | ⟨hfirst, _⟩)
    · exact .none
    · exact .some hfirst
  have hbars :
      List.Forall₂ (SignAgrees strict) (signs.filter (·.2 = .bar)) (signs'.filter (·.2 = .bar)) :=
    List.rel_filter (fun sign sign' hsign => by simp [hsign.1]) h
  have hfirst := hhead h
  have hlast := hhead (List.rel_reverse hbars)
  rw [List.head?_reverse, List.head?_reverse] at hlast
  have hlength := hbars.length_eq
  unfold Scope.checkSigns
  simp only
  generalize signs.filter (·.2 = .bar) = bars, signs'.filter (·.2 = .bar) = bars' at hlast hlength ⊢
  generalize signs.head? = first, signs'.head? = first' at hfirst ⊢
  generalize bars.getLast? = last, bars'.getLast? = last' at hlast ⊢
  cases hfirst with
  | none => exact .pure trivial
  | @some first first' hfirst =>
    cases hlast with
    | none => exact .pure trivial
    | @some last last' hlast =>
      simp only [hfirst.1]
      split
      · exact .throw fun hs => by rw [hfirst.2 hs]
      · have hlimit := F.limit_le
        have hle := hd.le
        refine F.bounded (by omega) (fun hs hsame => ?_) (.throw fun hs => by rw [hlast.2 hs])
        have := hd.eq hs
        omega

/-! ## The passes -/

theorem pendCast {p q : Pending} {mark mark' typeMark typeMark' : Mark} {target : TypeName}
    {signs signs' : List (Mark × Operator)} (hmark : strict → mark' = mark)
    (htype : strict → typeMark' = typeMark) (hsigns : List.Forall₂ (SignAgrees strict) signs signs')
    (h : p.Agrees strict E q) :
    (s.pendCast mark typeMark target signs p).Agrees strict E
      (s'.pendCast mark' typeMark' target signs' q) where
  node := Node.Agrees.cast_iff.mpr ⟨_, _, _, _, rfl, hmark, htype, hsigns, h.node⟩
  finish hd := by
    refine (F.checkDepth hd).bind fun _ _ _ => ?_
    refine (F.checkSigns hd hsigns).bind fun _ _ _ => ?_
    refine (h.finish (hd.itemDepth h.node)).bind fun n n' hn => ?_
    exact .pure (Node.Agrees.cast_iff.mpr ⟨_, _, _, _, rfl, hmark, htype, hsigns, hn⟩)

theorem casts (h : AgreeAll strict E ps qs) (hN : ∀ p ∈ ps, ∀ name ∈ p.node.heads, N name) :
    Arranging.Agrees strict E (AgreeAll strict E) (s.casts ps) (s'.casts qs) := by
  induction h with
  | nil => exact .pure .nil
  | @cons p q ps qs hp _ ih =>
    obtain ⟨hNp, hN⟩ := List.forall_mem_cons.mp hN
    have htarget : s'.castTarget? q.node = s.castTarget? p.node := by
      rw [← Node.castTarget?_unmarked, hp.node.1, Node.castTarget?_unmarked, F.castTarget?_eq hNp]
    refine (ih hN).bind fun rest rest' hrest => ?_
    rw [htarget]
    split
    · exact .pure (.cons hp hrest)
    · rename_i target _
      obtain ⟨hsigns, hafter⟩ := leadingOperators_agree hrest
      generalize leadingOperators rest = split, leadingOperators rest' = split' at hsigns hafter ⊢
      obtain ⟨signs, after⟩ := split
      obtain ⟨signs', after'⟩ := split'
      cases hafter with
      | nil => exact .throw fun hs => by rw [hp.node.offset_eq hs]
      | cons hoperand hafter =>
        refine (Arranging.Agrees.newMark hp.node.offset_eq).bind fun typeMark typeMark' htype => ?_
        refine (Arranging.Agrees.newMark hp.node.offset_eq).bind fun mark mark' hmark => ?_
        exact .pure (.cons (F.pendCast hmark htype hsigns hoperand) hafter)

omit F in
theorem absNode {k l offset offset' : Nat} {ns ns' : List Node} (hk : strict → l = k)
    (hoffset : strict → offset' = offset) (h : List.Forall₂ (Node.Agrees strict) ns ns') :
    (absNode k offset ns).Agrees strict (absNode l offset' ns') := by
  have hmark : ∀ i, strict → (⟨l + i, offset'⟩ : Mark) = ⟨k + i, offset⟩ := fun i hs => by
    rw [hk hs, hoffset hs]
  refine Node.Agrees.route_iff.mpr ⟨_, _, rfl, hmark 4, ?_⟩
  refine .cons (.member (hmark 1) _ _) (.cons (.member (hmark 2) _ _) (.cons ?_ .nil))
  refine .method (hmark 3) _ _ (.cons ?_ .nil)
  exact Node.Agrees.block_iff.mpr ⟨_, _, rfl, hmark 0, h⟩

omit F in
theorem absCall {inner inner' : List Pending} {offset offset' : Nat}
    (h : AgreeAll strict E inner inner') (hoffset : strict → offset' = offset) :
    Arranging.Agrees strict E (Pending.Agrees strict E) (absCall offset inner)
      (absCall offset' inner') := by
  refine fun k l hl =>
    ⟨_, _, absCall_run offset' l inner', fun hs => by rw [hl hs], ?_, fun hd => ?_⟩
  · refine absNode hl hoffset (List.forall₂_map_left_iff.mpr (List.forall₂_map_right_iff.mpr ?_))
    exact h.imp fun _ _ hp => hp.node
  · exact (finishProducts_agree h hd.succ).bind fun items items' hitems =>
      .pure (absNode hl hoffset hitems)

/-- Open spans whose offsets are the same if `strict`, with items before them that agree. -/
abbrev SpanAgrees (strict : Prop) (E : BuildError → Prop)
    (span span' : Nat × List Pending) : Prop :=
  (strict → span'.1 = span.1) ∧ AgreeAll strict E span.2 span'.2

theorem bars {spans spans' : List (Nat × List Pending)} {before before' rest rest' : List Pending}
    (hspans : List.Forall₂ (SpanAgrees strict E) spans spans')
    (hbefore : AgreeAll strict E before before') (hrest : AgreeAll strict E rest rest')
    (hd : LevelAgrees strict d d') :
    Arranging.Agrees strict E (AgreeAll strict E) (s.bars d spans before rest)
      (s'.bars d' spans' before' rest') := by
  induction hrest generalizing spans spans' before before' with
  | nil =>
    cases hspans with
    | nil => exact .pure (List.rel_reverse hbefore)
    | cons hspan _ => exact .throw fun hs => by rw [hspan.1 hs]
  | @cons p q rest rest' hp _ ih =>
    unfold Scope.bars
    rw [hp.node.operator?_eq, barOpens_agree hbefore]
    split
    · split
      · have hlimit := F.limit_le
        have hle := hd.le
        have hlength := hspans.length_eq
        refine F.bounded (by omega) (fun hs hsame => ?_)
          (ih (.cons ⟨hp.node.offset_eq, hbefore⟩ hspans) .nil)
        have := hd.eq hs
        omega
      · cases hspans with
        | nil => exact .throw fun hs => by rw [hp.node.offset_eq hs]
        | cons hspan hspans =>
          refine (absCall (List.rel_reverse hbefore) hspan.1).bind fun call call' hcall => ?_
          exact ih hspans (.cons hcall hspan.2)
    · exact ih hspans (.cons hp hbefore)

/-! ## Trees -/

theorem finishBlock {mark mark' : Mark} (hmark : strict → mark' = mark)
    (h : AgreeAll strict E ps qs) (hN : ∀ p ∈ ps, ∀ name ∈ p.node.heads, N name)
    (hd : LevelAgrees strict d d') :
    Arranging.Agrees strict E (Node.Agrees strict) (s.finishBlock d mark ps)
      (s'.finishBlock d' mark' qs) := by
  refine (F.checkDepth hd).bind fun _ _ _ => ?_
  refine (F.casts h hN).bind fun _ _ hcasts => ?_
  refine (F.bars .nil .nil hcasts hd).bind fun _ _ hbars => ?_
  refine (finishProducts_agree hbars hd).bind fun items items' hitems => ?_
  exact .pure (Node.Agrees.block_iff.mpr ⟨_, _, rfl, hmark, hitems⟩)

omit F in
theorem finishSegments {segments segments' : List (Segment Pending)}
    (h : List.Forall₂ (Segment.Agrees strict (Pending.Agrees strict E)) segments segments')
    (hd : LevelAgrees strict d d') :
    Arranging.Agrees strict E (List.Forall₂ (Segment.Agrees strict (Node.Agrees strict)))
      (finishSegments d segments) (finishSegments d' segments') := by
  induction h with
  | nil => exact .pure .nil
  | cons hsegment _ ih =>
    refine ih.bind fun rest rest' hrest => ?_
    cases hsegment with
    | member hmark name generics => exact .pure (.cons (.member hmark name generics) hrest)
    | method hmark name generics hargs =>
      refine (finishAll_agrees (fun _ => hd.succ) hargs).bind fun args args' hargs => ?_
      exact .pure (.cons (.method hmark name generics hargs) hrest)
    | indexer hmark hargs =>
      refine (finishAll_agrees (fun _ => hd.succ) hargs).bind fun args args' hargs => ?_
      exact .pure (.cons (.indexer hmark hargs) hrest)

omit F in
/-- What waits on the nodes of two lists agrees, if it does for nodes that agree. -/
theorem pendAll {ns ns' : List Node} (h : List.Forall₂ (Node.Agrees strict) ns ns')
    (hpend : ∀ n ∈ ns, ∀ n', n.Agrees strict n' → (n.pend s).Agrees strict E (n'.pend s')) :
    AgreeAll strict E (ns.map (Node.pend s)) (ns'.map (Node.pend s')) := by
  induction h with
  | nil => exact .nil
  | cons hn _ ih =>
    obtain ⟨hfirst, hrest⟩ := List.forall_mem_cons.mp hpend
    exact .cons (hfirst _ hn) (ih hrest)

omit F in
theorem pendSegments {segments segments' : List (Segment Node)}
    (h : List.Forall₂ (Segment.Agrees strict (Node.Agrees strict)) segments segments')
    (hpend : ∀ segment ∈ segments, ∀ n ∈ segment.args, ∀ n', n.Agrees strict n' →
      (n.pend s).Agrees strict E (n'.pend s')) :
    List.Forall₂ (Segment.Agrees strict (Pending.Agrees strict E))
      (segments.map (Segment.map (Node.pend s))) (segments'.map (Segment.map (Node.pend s'))) := by
  induction h with
  | nil => exact .nil
  | cons hsegment _ ih =>
    obtain ⟨hfirst, hrest⟩ := List.forall_mem_cons.mp hpend
    refine .cons ?_ (ih hrest)
    cases hsegment with
    | member hmark name generics => exact .member hmark name generics
    | method hmark name generics hargs => exact .method hmark name generics (pendAll hargs hfirst)
    | indexer hmark hargs => exact .indexer hmark (pendAll hargs hfirst)

/-- The work that is left on nodes that agree. -/
theorem pend {n n' : Node} (hn : n.Agrees strict n') (hN : ∀ name ∈ n.heads, N name) :
    (n.pend s).Agrees strict E (n'.pend s') := by
  induction n using Node.induct generalizing n' with
  | block mark items ih =>
    obtain ⟨mark', items', rfl, hmark, hitems⟩ := Node.Agrees.block_iff.mp hn
    have hheads := Node.forall_heads_block.mp hN
    refine ⟨by rwa [Node.pend_node, Node.pend_node], fun hd => ?_⟩
    simp only [Node.pend, Node.pendAll_eq_map]
    refine F.finishBlock hmark (pendAll hitems fun n hn n' hnn' => ih n hn hnn' (hheads n hn)) ?_ hd
    simp only [List.forall_mem_map, Node.pend_node]
    exact hheads
  | cast mark typeMark target signs operand ih =>
    obtain ⟨mark', typeMark', signs', operand', rfl, hmark, htype, hsigns, hoperand⟩ :=
      Node.Agrees.cast_iff.mp hn
    simp only [Node.pend]
    exact F.pendCast hmark htype hsigns (ih hoperand (Node.forall_heads_cast.mp hN))
  | route mark head segments ih =>
    obtain ⟨mark', segments', rfl, hmark, hsegments⟩ := Node.Agrees.route_iff.mp hn
    have hargs := (Node.forall_heads_route.mp hN).2
    refine ⟨by rwa [Node.pend_node, Node.pend_node], fun hd => ?_⟩
    simp only [Node.pend, Node.pendSegments_eq_map]
    refine (finishSegments (pendSegments hsegments fun segment hs n hn n' hnn' =>
      ih segment hs n hn hnn' (hargs segment hs n hn)) hd).bind fun ts ts' hts => ?_
    exact .pure (Node.Agrees.route_iff.mpr ⟨_, _, rfl, hmark, hts⟩)
  | constant | operator | unresolved =>
    have hleaf : ∀ d', (n'.pend s').finish d' = pure n' := by
      cases n' with
      | block | cast | route => cases hn.1
      | constant | operator | unresolved => exact fun _ => rfl
    refine ⟨by rwa [Node.pend_node, Node.pend_node], fun hd => ?_⟩
    rw [hleaf]
    exact .pure hn

end Scope.Follows

/-- **Arranging in two scopes** has the same outcome, unless the lower bound on nesting is
exceeded. -/
theorem Scope.Follows.arrange (F : s.Follows True E N s') {root : Node}
    (hN : ∀ name ∈ root.heads, N name) (k : Nat) :
    Except.Unless E ((root.arrange s).run k) ((root.arrange s').run k) :=
  ((F.pend (.refl root) hN).finish ⟨Nat.le_refl 0, fun _ => rfl⟩).outcome
    (fun _ _ h => h.2 trivial) k

end Formula
