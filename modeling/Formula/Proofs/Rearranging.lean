import Formula.Proofs.Precedence
import Formula.Proofs.ReadBack

/-!
# Arranging what was arranged

In an arranged tree there is nothing left to arrange (`Element.IsArranged`). A tree that looks like
one stays as it is when it is arranged (`Node.finish_of_written`).
-/

namespace Formula

variable {s : Scope} {ps : List Pending} {d : Nat}

/-! ## Passes with nothing to do -/

/-- Finishing the node changes nothing. -/
def Pending.Idle (d : Nat) (p : Pending) : Prop := p.finish d = pure p.node

theorem finishAll_idle {level : Node → Nat} (h : ∀ p ∈ ps, p.Idle (level p.node)) :
    finishAll level ps = pure (ps.map Pending.node) := by
  induction ps with
  | nil => rfl
  | cons p ps ih =>
    obtain ⟨hp, hps⟩ := List.forall_mem_cons.mp h
    rw [finishAll, ih hps, pure_bind, hp, pure_bind, List.map_cons]

theorem finishRuns_idle {runs : List (List Pending)}
    (h : ∀ p ∈ runs.flatten, p.Idle (itemDepth d p.node)) :
    finishRuns d (runs.map (none, ·)) = pure (runs.flatten.map Pending.node) := by
  induction runs with
  | nil => rfl
  | cons run runs ih =>
    rw [List.flatten_cons, List.forall_mem_append] at h
    rw [List.map_cons, finishRuns, ih h.2, pure_bind, finishItems, finishAll_idle h.1, pure_bind,
      List.flatten_cons, List.map_append]

theorem markRuns_single : markRuns (ps.map ([·])) = pure ((ps.map ([·])).map (none, ·)) := by
  unfold markRuns
  split
  · rfl
  · clear * -
    induction ps with
    | nil => rfl
    | cons p ps ih =>
      rw [List.map_cons, List.mapM_cons, ih]
      rfl

/-- Grouped items are finished one by one. -/
theorem finishProducts_idle {items : List Node} (hgrouped : Grouped items)
    (hops : ps.map (·.node.operator?) = items.map Node.operator?)
    (h : ∀ p ∈ ps, p.Idle (itemDepth d p.node)) :
    finishProducts d ps = pure (ps.map Pending.node) := by
  have hmark : markRuns (productRuns ps) = pure ((productRuns ps).map (none, ·)) := by
    -- a single run is not marked, and a run of one item neither
    rcases hgrouped ps hops with hone | hsingle
    · rw [markRuns, if_pos hone]
    · rw [hsingle, markRuns_single]
  rw [finishProducts, hmark, pure_bind, finishRuns_idle (by rwa [productRuns_flatten]),
    productRuns_flatten]

/-- A block is left as it is, if its items are and there is nothing to arrange among them. -/
theorem idle_block {mark : Mark} {items items' : List Node} (hd : d ≤ s.limit)
    (hgrouped : Grouped items) (hops : items'.map Node.operator? = items.map Node.operator?)
    (h : ∀ n ∈ items', s.castTarget? n = none ∧ n.operator? ≠ some .bar ∧
      (n.pend s).Idle (itemDepth d n)) :
    ((Node.block mark items').pend s).Idle d := by
  have hcheck : s.checkDepth d = pure () := if_neg (Nat.not_lt.mpr hd)
  have hps : ∀ p ∈ items'.map (Node.pend s), s.castTarget? p.node = none ∧
      p.node.operator? ≠ some .bar ∧
      p.Idle (itemDepth d p.node) := by
    simpa only [List.forall_mem_map, Node.pend_node] using h
  have hops' : (items'.map (Node.pend s)).map (·.node.operator?) = items.map Node.operator? := by
    simpa [Function.comp_def] using hops
  simp only [Pending.Idle, Node.pend, Node.pendAll_eq_map]
  rw [Scope.finishBlock, hcheck, pure_bind, Scope.casts_of_none fun p hp => (hps p hp).1, pure_bind,
    Scope.bars_of_none fun p hp => (hps p hp).2.1, pure_bind, List.reverse_nil, List.nil_append,
    finishProducts_idle hgrouped hops' fun p hp => (hps p hp).2.2, pure_bind, Node.nodes_pend]

theorem finishSegments_idle {segments : List (Segment Pending)}
    (h : ∀ segment ∈ segments, ∀ p ∈ segment.args, p.Idle (d + 1)) :
    finishSegments d segments = pure (segments.map (Segment.map Pending.node)) := by
  induction segments with
  | nil => rfl
  | cons segment rest ih =>
    obtain ⟨hsegment, hrest⟩ := List.forall_mem_cons.mp h
    rw [finishSegments, ih hrest, pure_bind]
    cases segment with
    | member mark name generics => rfl
    | method mark name generics args =>
      have hargs : finishArgs d args = pure (args.map Pending.node) := finishAll_idle hsegment
      simp only [hargs, pure_bind]
      rfl
    | indexer mark args =>
      have hargs : finishArgs d args = pure (args.map Pending.node) := finishAll_idle hsegment
      simp only [hargs, pure_bind]
      rfl

/-- A route is left as it is, if its arguments are. -/
theorem idle_route {mark : Mark} {head : RouteHead} {segments : List (Segment Node)}
    (h : ∀ segment ∈ segments, ∀ a ∈ segment.args, (a.pend s).Idle (d + 1)) :
    ((Node.route mark head segments).pend s).Idle d := by
  simp only [Pending.Idle, Node.pend, Node.pendSegments_eq_map]
  rw [finishSegments_idle (Node.forall_pend_args h), pure_bind, Node.segments_pend]

/-! ## Trees -/

/-- An element of an arranged tree: in a block there is nothing left to arrange. -/
def Element.IsArranged (s : Scope) : Element → Prop
  | .node (.block _ items) => s.Arranged items
  | _ => True

theorem Segment.args_unmarked (f : Node → Node) (s : Segment Node) :
    (s.unmarked f).args = s.args.map f := by
  cases s <;> rfl

namespace Node

variable {n q : Node}

private theorem unmarked_eq_block {items : List Node} (h : q.unmarked = .block default items) :
    ∃ mark items', q = .block mark items' ∧ items'.map unmarked = items := by
  cases q with
  | block mark items' =>
    simp only [unmarked, unmarkedAll_eq_map, Node.block.injEq, true_and] at h
    exact ⟨mark, items', rfl, h⟩
  | _ => cases h

private theorem unmarked_eq_route {head : RouteHead} {segments : List (Segment Node)}
    (h : q.unmarked = .route default head segments) :
    ∃ mark segments', q = .route mark head segments' ∧
      segments'.map (Segment.unmarked unmarked) = segments := by
  cases q with
  | route mark head' segments' =>
    simp only [unmarked, unmarkedSegments_eq_map, Node.route.injEq, true_and] at h
    obtain ⟨rfl, hsegments⟩ := h
    exact ⟨mark, segments', rfl, hsegments⟩
  | _ => cases h

/-- The arguments of a route are shown by those of what looks like it. -/
theorem exists_arg_written {segments segments' : List (Segment Node)}
    (h : segments'.map (Segment.unmarked unmarked) = segments.map (Segment.unmarked written))
    {segment' : Segment Node} (hs : segment' ∈ segments') {a : Node} (ha : a ∈ segment'.args) :
    ∃ segment ∈ segments, ∃ n ∈ segment.args, a.unmarked = n.written := by
  obtain ⟨segment, hs, hsegment⟩ := exists_of_forall₂ (map_eq_map_iff_forall₂.mp h.symm) hs
  have hsame := congrArg Segment.args hsegment
  rw [Segment.args_unmarked, Segment.args_unmarked] at hsame
  obtain ⟨n, hn, hwritten⟩ := exists_of_forall₂ (map_eq_map_iff_forall₂.mp hsame) ha
  exact ⟨segment, hs, n, hn, hwritten.symm⟩

/-- A dotted name is shown as such. -/
theorem path?_written (h : ∀ e ∈ n.elements, e.IsSpelled) : n.written.path? = n.path? := by
  cases n with
  | route mark head segments =>
    obtain ⟨⟨-, hhead⟩, -⟩ := forall_elements_route.mp h
    rw [written, writtenSegments_eq_map, path?, memberPath_unmarked]
    rcases hhead with rfl | hnone
    · rfl
    · rw [hnone]
      cases head <;> simp [path?, hnone]
  | _ => simp [written, path?]

theorem castTarget?_written (s : Scope) (h : ∀ e ∈ n.elements, e.IsSpelled) :
    s.castTarget? n.written = s.castTarget? n := by
  cases n with
  | block mark items =>
    rw [written, writtenAll_eq_map]
    rcases items with _ | ⟨first, _ | ⟨second, rest⟩⟩
    · rfl
    · have hfirst := (forall_elements_block.mp h).2 first List.mem_cons_self
      exact Scope.castTarget?_of_path? (path?_written hfirst) mark default
    · simp [Scope.castTarget?]
  | _ => simp [written, Scope.castTarget?]

theorem levels_lt_segmentLevels {segment : Segment Node} (h : n ∈ segment.args) :
    n.levels < segmentLevels segment := by
  cases segment with
  | member => cases h
  | method mark name generics args =>
    have hle : n.levels ≤ levelsOfArgs args := levelsOfArgs_le.mp (Nat.le_refl _) n h
    rw [segmentLevels]
    omega
  | indexer mark args =>
    have hle : n.levels ≤ levelsOfArgs args := levelsOfArgs_le.mp (Nat.le_refl _) n h
    rw [segmentLevels]
    omega

/-- A block stands one level further in, and its text is one level more. -/
theorem itemDepth_add_levels (d : Nat) (h : q.isBlock = n.isBlock) :
    itemDepth d q + n.levels = d + n.itemLevels := by
  rw [itemDepth, itemLevels, h]
  split <;> omega

/-- **A tree that looks like an arranged tree** stays as it is when it is arranged. -/
theorem finish_of_written (hplain : ∀ e ∈ n.elements, e.isPlain = true)
    (hspelled : ∀ e ∈ n.elements, e.IsSpelled) (harranged : ∀ e ∈ n.elements, e.IsArranged s)
    (hq : q.unmarked = n.written) (hd : d + n.levels ≤ s.limit) :
    (q.pend s).Idle d := by
  -- `n` was arranged and `q` was read: what arranging looks at is the same in both
  induction n using Node.induct generalizing q d with
  | constant | operator =>
    cases q with
    | constant | operator =>
      simp only [Pending.Idle, pend]
    | _ => cases hq
  | unresolved | cast => cases hplain _ (elements_self _)
  | route mark head segments ih =>
    rw [written, writtenSegments_eq_map] at hq
    obtain ⟨mark', segments', rfl, hsegments⟩ := unmarked_eq_route hq
    obtain ⟨-, hplains⟩ := forall_elements_route.mp hplain
    obtain ⟨-, hspelleds⟩ := forall_elements_route.mp hspelled
    obtain ⟨-, harrangeds⟩ := forall_elements_route.mp harranged
    refine idle_route fun segment' hs' a ha => ?_
    obtain ⟨segment, hs, n, hn, hwritten⟩ := exists_arg_written hsegments hs' ha
    refine ih segment hs n hn ((hplains segment hs).2 n hn) ((hspelleds segment hs).2 n hn)
      ((harrangeds segment hs).2 n hn) hwritten ?_
    have hlt := levels_lt_segmentLevels hn
    have hle : segmentLevels segment ≤ levelsOfSegments segments :=
      levelsOfSegments_le.mp (Nat.le_refl _) segment hs
    rw [levels] at hd
    omega
  | block mark items ih =>
    rw [written, writtenAll_eq_map] at hq
    obtain ⟨mark', items', rfl, hitems⟩ := unmarked_eq_block hq
    obtain ⟨-, hplains⟩ := forall_elements_block.mp hplain
    obtain ⟨-, hspelleds⟩ := forall_elements_block.mp hspelled
    obtain ⟨hblock, harrangeds⟩ := forall_elements_block.mp harranged
    have hblock : s.Arranged items := hblock
    have hsame := map_eq_map_iff_forall₂.mp hitems.symm
    have hops : ∀ i i' : Node, i.written = i'.unmarked → i.operator? = i'.operator? :=
      fun i i' h => by
      rw [← i.written_operator?, h, unmarked_operator?]
    refine idle_block (by omega) hblock.grouped
      (map_eq_map_iff_forall₂.mpr (hsame.imp hops)).symm ?_
    intro i' hi'
    obtain ⟨i, hi, hwritten⟩ := exists_of_forall₂ hsame hi'
    refine ⟨?_, ?_, ih i hi (hplains i hi) (hspelleds i hi) (harrangeds i hi) hwritten.symm ?_⟩
    · rw [← castTarget?_unmarked, ← hwritten, castTarget?_written s (hspelleds i hi)]
      exact hblock.noCast i hi
    · rw [← hops i i' hwritten]
      exact hblock.noBar i hi
    · have hle : i.itemLevels ≤ levelsOfItems items := levelsOfItems_le.mp (Nat.le_refl _) i hi
      have hisBlock : i'.isBlock = i.isBlock := by
        rw [← i'.unmarked_isBlock, ← hwritten, written_isBlock]
      have hdepth := itemDepth_add_levels d hisBlock
      rw [levels] at hd
      omega

end Node

end Formula
