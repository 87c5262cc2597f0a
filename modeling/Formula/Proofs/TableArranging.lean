import Formula.Proofs.Wording
import Formula.Proofs.Worklist
import Formula.Registry.Standard
import Mathlib.Data.List.Perm.Subperm

/-!
# Arranging a table is arranging a tree

A tree is arranged in two parts, `Node.pend` and the finishing of what it left pending; the worklist
does both at a visit and comes back to the cells it made. Three facts close the gap:

* `Pending.Visited`: visiting the cell of a pending node is finishing it. It is shown of casts,
  bars, products and blocks, each from its own parts, and so of everything that is read
  (`Node.pend_ready`).
* The block of a cast, of the inside of bars or of a run is arranged already when it is visited. The
  passes leave its items as they are (`visit_waiting`, `signs_mimics`); bars among the signs of a
  cast are the one fault that is found as late as this.
* A visit changes its own cell and new ones, so the visits below two items of a block do not meet
  (`Turns.both`).

`NodeTable.run_arranges` puts them together: the worklist ends, at each cell of the arranged tree
once, and the table holds that tree.
-/

namespace Formula

open Tabling

variable {s : Scope} {t : NodeTable} {ps : List Pending} {depth : Nat}

/-! ## Second visits -/

theorem casts_same {items : List Item}
    (h : ∀ item ∈ items, (castTarget? s item).run t = .ok (none, t)) :
    (casts s items).run t = .ok (items, t) := by
  induction items with
  | nil => rfl
  | cons item rest ih =>
    obtain ⟨hitem, hrest⟩ := List.forall_mem_cons.mp h
    exact (run_bind_ok (ih hrest)).trans (run_bind_ok hitem)

theorem bars_same {items : List Item} (h : ∀ item ∈ items, item.operator? ≠ some .bar)
    (before : List Item) :
    (bars s depth [] before items).run t = .ok (before.reverse ++ items, t) := by
  induction items generalizing before with
  | nil =>
    rw [List.append_nil]
    rfl
  | cons item rest ih =>
    obtain ⟨hitem, hrest⟩ := List.forall_mem_cons.mp h
    rw [bars, if_neg hitem, ih hrest, List.reverse_cons, List.append_assoc, List.singleton_append]

theorem checkDepth_mimics : Mimics t (checkDepth s depth) (s.checkDepth depth) fun _ _ t' =>
    depth ≤ s.limit ∧ t' = t := by
  unfold checkDepth Scope.checkDepth
  split
  · exact .fail
  · rename_i hdepth
    exact .pure ⟨Nat.le_of_not_lt hdepth, rfl⟩

theorem visit_block {block : Item} {items : List Item} (hblock : t.get? block.id = some block.cell)
    (hentry : block.cell.entry = .block (items.map Item.id))
    (hitems : ∀ item ∈ items, t.get? item.id = some item.cell) :
    (visit s block.id depth).run t = (do
      checkDepth s depth
      let items ← casts s items
      let items ← bars s depth [] [] items
      regroup block depth items : Tabling (List Visit)).run t := by
  refine (run_bind_ok (fetch_run hblock)).trans ?_
  simp only [hentry]
  unfold arrangeBlock checkDepth
  split
  · rfl
  · rw [pure_bind, pure_bind]
    exact run_bind_ok (fetchAll_run hitems)

/-- A block of which the first two passes leave the items as they are. -/
theorem revisit_block {block : Item} {items : List Item}
    (hblock : t.get? block.id = some block.cell)
    (hentry : block.cell.entry = .block (items.map Item.id))
    (hitems : ∀ item ∈ items, t.get? item.id = some item.cell) (hdepth : depth ≤ s.limit)
    (hcasts : ∀ item ∈ items, (castTarget? s item).run t = .ok (none, t))
    (hbars : ∀ item ∈ items, item.operator? ≠ some .bar) :
    (visit s block.id depth).run t = (regroup block depth items).run t := by
  have hcheck : (checkDepth s depth).run t = .ok ((), t) := by
    rw [checkDepth, if_neg (Nat.not_lt.mpr hdepth)]
    rfl
  rw [visit_block hblock hentry hitems, run_bind_ok hcheck, run_bind_ok (casts_same hcasts),
    run_bind_ok (bars_same hbars [])]
  rfl

/-- A block that is grouped is left as it is. -/
theorem regroup_same {block : Item} {items : List Item} (hblock : t.get? block.id = some block.cell)
    (hentry : block.cell.entry = .block (items.map Item.id))
    (hgroup : group items = pure (items, [])) :
    (regroup block depth items).run t =
      .ok ((items.map fun item => (item.id, if item.isBlock then depth + 1 else depth)).reverse,
        t) := by
  have hcell : (⟨.block (items.map Item.id), block.cell.offset⟩ : Cell) = block.cell := by
    rw [← hentry]
  have hput : (put block.id block.cell).run t = .ok ((), t) := by
    show Except.ok ((), t.put block.id block.cell) = _
    rw [NodeTable.put_of_get? hblock]
  have hvisits : items.map (visitOf depth []) =
      items.map fun item => (item.id, if item.isBlock then depth + 1 else depth) := by
    simp [visitOf]
  simp only [regroup, hgroup, pure_bind, hcell, hvisits]
  exact run_bind_ok hput

/-! ## Pending nodes -/

/-- Visiting the node is finishing it. -/
def Pending.Visited (s : Scope) (depth : Nat) (p : Pending) : Prop :=
  Turns s p.node.cells [(p.node.mark.slot, depth)] (p.finish depth) Node.cells fun n =>
    n.mark = p.node.mark

theorem cellIds_cells (n : Node) : cellIds n.cells = n.slots := n.cells_slots

theorem cellIds_cellsAll (ns : List Node) : cellIds (Node.cellsAll ns) = Node.slotsAll ns :=
  Node.cellsAll_slots fun n _ => n.cells_slots

theorem cellIds_cellsOfSegments (segments : List (Segment Node)) :
    cellIds (Node.cellsOfSegments segments) = Node.slotsOfSegments segments :=
  Node.cellsOfSegments_slots fun _ _ n _ => n.cells_slots

theorem slots_of_marks {ns ms : List Node} (h : ns.map Node.mark = ms.map Node.mark) :
    ns.map (·.mark.slot) = ms.map (·.mark.slot) := by
  have hslots := congrArg (List.map Mark.slot) h
  rwa [List.map_map, List.map_map] at hslots

theorem finishAll_turns {level : Node → Nat}
    (h : ∀ p ∈ ps, p.Numbered ∧ p.Visited s (level p.node)) :
    Turns s (Node.cellsAll (ps.map Pending.node))
      (ps.map fun p => (p.node.mark.slot, level p.node)).reverse
      (finishAll level ps) Node.cellsAll fun ns =>
        ns.map Node.mark = (ps.map Pending.node).map Node.mark := by
  induction ps with
  | nil => exact fun t _ _ => .pure ⟨rfl, nofun, rfl⟩
  | cons p rest ih =>
    obtain ⟨hp, hrest⟩ := List.forall_mem_cons.mp h
    rw [List.map_cons, List.map_cons, List.reverse_cons]
    refine (ih hrest).both ?_ hp.2 ?_
    · intro k ns k' hk hx
      rw [cellIds_cellsAll] at hk ⊢
      rw [cellIds_cellsAll]
      exact finishAll_numbered (fun q hq => (hrest q hq).1) hk hx
    · intro n ns hn hns
      exact ⟨rfl, congrArg₂ List.cons hn hns⟩

/-! ## Products -/

/-- The node waits in a block at level `depth`, and no pass but grouping is left to be made over
it. -/
structure Pending.Waits (s : Scope) (depth : Nat) (p : Pending) : Prop where
  numbered : p.Numbered
  visited : p.Visited s (itemDepth depth p.node)
  noBar : p.node.operator? ≠ some .bar
  noCast : s.castTarget? p.node = none

theorem NodeTable.Holds.item_get? {p : Pending} (h : t.Holds p.node) :
    t.get? p.item.id = some p.item.cell := h.get?

theorem ids_items (ps : List Pending) :
    (ps.map Pending.item).map Item.id = (ps.map Pending.node).map (·.mark.slot) := by
  simp [Pending.item, Node.item]

theorem visits_items (depth : Nat) (ps : List Pending) :
    ((ps.map Pending.item).map fun item => (item.id, if item.isBlock then depth + 1 else depth)) =
      ps.map fun p => (p.node.mark.slot, itemDepth depth p.node) := by
  rw [List.map_map]
  refine List.map_congr_left fun p _ => ?_
  show (p.node.mark.slot, if p.node.item.isBlock then depth + 1 else depth) = _
  rw [Node.isBlock_item]
  rfl

/-- The block of items that wait for grouping, when it is visited. -/
theorem visit_waiting {mark : Mark} (hps : ∀ p ∈ ps, p.Waits s depth) (hdepth : depth ≤ s.limit)
    (ht : t.Holds (.block mark (ps.map Pending.node))) :
    (visit s mark.slot depth).run t =
      (regroup (Node.block mark (ps.map Pending.node)).item depth (ps.map Pending.item)).run t := by
  obtain ⟨hblock, hnodes⟩ := NodeTable.holds_block.mp ht
  replace hnodes := List.forall_mem_map.mp hnodes
  refine @revisit_block s t depth (Node.block mark (ps.map Pending.node)).item _ hblock
    ?_ ?_ hdepth ?_ ?_
  · rw [ids_items]
    rfl
  · exact List.forall_mem_map.mpr fun p hp => (hnodes p hp).item_get?
  · refine List.forall_mem_map.mpr fun p hp => ?_
    rw [← (hps p hp).noCast]
    exact castTarget?_run (hnodes p hp)
  · refine List.forall_mem_map.mpr fun p hp => ?_
    rw [Pending.operator?_item]
    exact (hps p hp).noBar

/-- The visits of the nodes of a run. -/
def pieceVisits (depth : Nat) : Option Mark × List Pending → List Visit
  | (some mark, _) => [(mark.slot, depth)]
  | (none, run) => run.map fun p => (p.node.mark.slot, itemDepth depth p.node)

/-- What a run is finished to. -/
def piece (mark : Option Mark) (items : List Node) : List Node :=
  match mark with
  | some mark => [.block mark items]
  | none => items

theorem piece_turns {mark : Option Mark} {run : List Pending} (hdepth : depth ≤ s.limit)
    (h : ∀ p ∈ run, p.Waits s depth) (hrun : mark.isSome → (productRuns run).length ≤ 1) :
    Turns s (Node.cellsAll (pieceNodes (mark, run))) (pieceVisits depth (mark, run)).reverse
      (finishItems depth run >>= fun items => pure (piece mark items)) Node.cellsAll
      fun ns => ns.map Node.mark = (pieceNodes (mark, run)).map Node.mark := by
  have hitems :=
    @finishAll_turns s run (itemDepth depth) fun p hp => ⟨(h p hp).numbered, (h p hp).visited⟩
  cases mark with
  | none =>
    intro t ht hD
    refine (hitems t ht hD).map (fun _ => .inl) ?_
    rintro ns steps t' - ⟨hsteps, hcells, hmarks⟩
    exact ⟨hsteps, hcells, hmarks⟩
  | some mark =>
    have hcells : ∀ items, Node.cellsAll [Node.block mark items] =
        (mark.slot, (Node.block mark items).cell) :: Node.cellsAll items := by
      intro items
      rw [Node.cellsAll, Node.cells, Node.cellsAll, List.append_nil]
    show Turns s (Node.cellsAll [.block mark (run.map Pending.node)]) [(mark.slot, depth)] _ _ _
    rw [hcells]
    refine hitems.wrap (fun t ht => ?_) fun ns hns => ?_
    · rw [← hcells] at ht
      have ht : t.Holds (.block mark (run.map Pending.node)) :=
        NodeTable.has_cellsAll.mp ht _ (List.mem_singleton.mpr rfl)
      rw [visit_waiting h hdepth ht,
        regroup_same (NodeTable.holds_block.mp ht).1 ?_ (group_single (hrun rfl)), visits_items]
      rw [ids_items]
      rfl
    · refine ⟨?_, rfl⟩
      show Node.cellsAll [.block mark ns] = _
      rw [hcells, Node.cell, slots_of_marks hns]
      rfl

theorem Node.cellsAll_append (ns ms : List Node) :
    cellsAll (ns ++ ms) = cellsAll ns ++ cellsAll ms := by
  simp [cellsAll_eq]

theorem slotsAll_pieces (marked : List (Option Mark × List Pending)) :
    Node.slotsAll (marked.flatMap pieceNodes) = marked.flatMap runSlots := by
  induction marked with
  | nil => rfl
  | cons run marked ih =>
    obtain ⟨_ | mark, run⟩ := run <;>
      simp [Node.slotsAll_append, ih, pieceNodes, runSlots, pendingSlots, Node.slotsAll, Node.slots]

theorem finishRuns_turns {marked : List (Option Mark × List Pending)} (hdepth : depth ≤ s.limit)
    (h : ∀ run ∈ marked, ∀ p ∈ run.2, p.Waits s depth)
    (hruns : ∀ run ∈ marked, (productRuns run.2).length ≤ 1) :
    Turns s (Node.cellsAll (marked.flatMap pieceNodes)) (marked.flatMap (pieceVisits depth)).reverse
      (finishRuns depth marked) Node.cellsAll fun ns =>
        ns.map Node.mark = (marked.flatMap pieceNodes).map Node.mark := by
  induction marked with
  | nil => exact fun t _ _ => .pure ⟨rfl, nofun, rfl⟩
  | cons run marked ih =>
    obtain ⟨mark, run⟩ := run
    obtain ⟨hrun, hmarked⟩ := List.forall_mem_cons.mp h
    obtain ⟨hone, hruns⟩ := List.forall_mem_cons.mp hruns
    have hfinish :
        finishRuns depth ((mark, run) :: marked) = (finishRuns depth marked >>= fun rest =>
        (finishItems depth run >>= fun items => pure (piece mark items)) >>= fun ns =>
        pure (ns ++ rest)) := by
      rw [finishRuns]
      simp only [bind_assoc, pure_bind]
      cases mark <;> rfl
    rw [List.flatMap_cons, List.flatMap_cons, Node.cellsAll_append, List.reverse_append, hfinish]
    refine (ih hmarked hruns).both ?_ (piece_turns hdepth hrun fun _ => hone) ?_
    · intro k ns k' hk hx
      rw [cellIds_cellsAll, slotsAll_pieces] at hk ⊢
      rw [cellIds_cellsAll]
      exact finishRuns_numbered (fun run hrun p hp => (hmarked run hrun p hp).numbered) hk hx
    · intro ms ns hms hns
      exact ⟨Node.cellsAll_append ms ns, by rw [List.map_append, List.map_append, hms, hns]⟩

/-- The visits that a block of runs gives are those of the runs. -/
theorem visits_runs {marked : List (Option Mark × List Pending)} {grouped : List Item × List Nat}
    {t' : NodeTable} (h : RunsGrouped t [] marked grouped t')
    (ht : ∀ run ∈ marked, ∀ p ∈ run.2, t.Holds p.node) :
    grouped.1.map (visitOf depth grouped.2) = marked.flatMap (pieceVisits depth) := by
  rw [h.items, List.nil_append, List.map_map, List.map_flatMap]
  refine List.flatMap_congr fun run hrun => ?_
  obtain ⟨_ | mark, run⟩ := run
  · rw [pieceNodes, List.map_map, pieceVisits]
    refine List.map_congr_left fun p hp => ?_
    have hold : p.node.mark.slot ∉ grouped.2 := fun hmem =>
      Nat.not_le.mpr (NodeTable.lt_size_of_get? (ht _ hrun p hp).get?) (h.new _ hmem)
    have hcontains : grouped.2.contains p.node.item.id = false := by simpa [Node.item] using hold
    simp only [Function.comp_apply, visitOf, hcontains, Node.isBlock_item,
      Bool.not_false, Bool.and_true]
    rfl
  · have hcontains : grouped.2.contains mark.slot = true := by simpa using h.runs _ hrun mark rfl
    simp only [pieceNodes, pieceVisits, List.map_cons, List.map_nil, Function.comp_apply, visitOf,
      Node.item, Node.mark, hcontains, Bool.not_true, Bool.and_false, Bool.false_eq_true, if_false]

/-- What is left of a visit to a block, when its items wait for grouping. -/
theorem products_carriedOut {mark : Mark} {ids : List Nat} (hps : ∀ p ∈ ps, p.Waits s depth)
    (hdepth : depth ≤ s.limit) (hblock : t.get? mark.slot = some ⟨.block ids, mark.offset⟩)
    (ht : ∀ p ∈ ps, t.Holds p.node) (hnodup : (mark.slot :: pendingSlots ps).Nodup) :
    CarriesOut s t (mark.slot :: pendingSlots ps)
      (regroup ⟨mark.slot, ⟨.block ids, mark.offset⟩⟩ depth (ps.map Pending.item))
      (finishProducts depth ps >>= fun ns => pure (.block mark ns))
      fun n steps t' => steps + 1 = n.cells.length ∧ t'.Holds n ∧ n.mark = mark := by
  obtain ⟨hmark, hslots⟩ := List.nodup_cons.mp hnodup
  have hcells : t.Has (Node.cellsAll (ps.map Pending.node)) :=
    NodeTable.has_cellsAll.mpr (List.forall_mem_map.mpr ht)
  have hbelow : Below (pendingSlots ps) t.size := by
    have := hcells.below (by rwa [cellIds_cellsAll])
    rwa [cellIds_cellsAll] at this
  unfold finishProducts
  rw [bind_assoc]
  refine CarriesOut.pass (fun marked => mark.slot :: marked.flatMap runSlots) (group_mimics ht) ?_
  rintro marked grouped t₁ hext hrun hgrouped
  obtain ⟨hruns, hgrows⟩ := markRuns_numbered (by rwa [productRuns_flatten]) hrun
  rw [productRuns_flatten] at hgrows
  have hmem : ∀ run ∈ marked, ∀ p ∈ run.2, p ∈ ps := by
    intro run hrun p hp
    rw [← productRuns_flatten ps, ← hruns]
    exact List.mem_flatten.mpr ⟨run.2, List.mem_map_of_mem hrun, hp⟩
  have hones : ∀ run ∈ marked, (productRuns run.2).length ≤ 1 := by
    intro run hrun
    rw [productRuns_run (hruns ▸ List.mem_map_of_mem hrun)]
    exact Nat.le_refl 1
  have hnew : mark.slot ∉ marked.flatMap runSlots :=
    hgrows.not_mem hmark (NodeTable.lt_size_of_get? hblock)
  refine ⟨hgrows.mem_cons mark.slot, CarriesOut.put List.mem_cons_self ?_⟩
  · rw [visits_runs hgrouped fun run hrun p hp => ht p (hmem run hrun p hp)]
    have hlt : mark.slot < t₁.size :=
      Nat.lt_of_lt_of_le (NodeTable.lt_size_of_get? hblock) hext.size_le
    have hids : cellIds (Node.cellsAll (marked.flatMap pieceNodes)) = marked.flatMap runSlots := by
      rw [cellIds_cellsAll, slotsAll_pieces]
    have hpieces := (NodeTable.has_cellsAll.mpr hgrouped.holds).of_sameBut
      (@NodeTable.sameBut_put t₁ mark.slot ⟨.block (grouped.1.map Item.id), mark.offset⟩ [mark.slot]
        List.mem_cons_self)
      fun i hi => by
        rw [List.mem_singleton]
        rintro rfl
        exact hnew (hids ▸ hi)
    have hturns :=
      finishRuns_turns hdepth (fun run hrun p hp => hps p (hmem run hrun p hp)) hones _ hpieces
      (hids ▸ hgrows.nodup)
    refine hturns.map (fun i hi => .inl (List.mem_cons_of_mem _ (hids ▸ hi))) ?_
    rintro ns steps t' hsame ⟨hsteps, hcells, hmarks⟩
    have hitems : grouped.1.map Item.id = ns.map (·.mark.slot) := by
      rw [hgrouped.items, List.nil_append, List.map_map, slots_of_marks hmarks]
      rfl
    refine ⟨?_, NodeTable.holds_block.mpr ⟨?_, NodeTable.has_cellsAll.mp hcells⟩, rfl⟩
    · rw [Node.cells, List.length_cons, hsteps]
    · rw [hsame.get? mark.slot (by rwa [NodeTable.size_put]) (hids ▸ hnew),
        NodeTable.get?_put_self hlt, hitems]
      rfl

/-! ## Segments -/

theorem Node.cellsOfSegments_append (segments rest : List (Segment Node)) :
    cellsOfSegments (segments ++ rest) = cellsOfSegments segments ++ cellsOfSegments rest := by
  induction segments with
  | nil => rfl
  | cons segment segments ih => simp [cellsOfSegments_cons, ih]

/-- Finishes the arguments of a segment. -/
def finishSegment (depth : Nat) : Segment Pending → Arranging (Segment Node)
  | .member mark name generics => pure (.member mark name generics)
  | .method mark name generics args =>
    finishArgs depth args >>= fun args => pure (.method mark name generics args)
  | .indexer mark args => finishArgs depth args >>= fun args => pure (.indexer mark args)

private theorem finishSegments_cons (depth : Nat) (segment : Segment Pending)
    (rest : List (Segment Pending)) :
    finishSegments depth (segment :: rest) = (finishSegments depth rest >>= fun ts =>
      finishSegment depth segment >>= fun t => pure (t :: ts)) := by
  cases segment <;> simp [finishSegments, finishSegment]

theorem segment_turns {segment : Segment Pending}
    (h : ∀ p ∈ segment.args, p.Numbered ∧ p.Visited s (depth + 1)) :
    Turns s (Node.cellsOfSegments [segment.map Pending.node]) [(segment.mark.slot, depth)]
      (finishSegment depth segment)
      (fun t => Node.cellsOfSegments [t]) fun t => t.mark = segment.mark := by
  have hargs := @finishAll_turns s segment.args (fun _ => depth + 1) h
  have hcells :
      ∀ t : Segment Node, Node.cellsOfSegments [t] =
      (t.mark.slot, t.cell) :: Node.cellsAll t.args := by
    intro t
    rw [Node.cellsOfSegments_cons, Node.cellsOfSegments, List.append_nil]
  have hvisits :
      ∀ args : List Pending, (((args.map Pending.node).map (·.mark.slot)).map (·, depth + 1)) =
      args.map fun p => (p.node.mark.slot, depth + 1) := by
    intro args
    simp
  simp only [hcells]
  cases segment with
  | member mark name generics => exact Turns.leaf rfl rfl rfl
  | method mark name generics args =>
    refine hargs.wrap (fun t ht => ?_) fun ns hns => ⟨?_, rfl⟩
    · rw [← hvisits]
      exact run_bind_ok (@fetch_run t ⟨_, _⟩ (NodeTable.has_cons.mp ht).1)
    · rw [Segment.cell, slots_of_marks hns]
      rfl
  | indexer mark args =>
    refine hargs.wrap (fun t ht => ?_) fun ns hns => ⟨?_, rfl⟩
    · rw [← hvisits]
      exact run_bind_ok (@fetch_run t ⟨_, _⟩ (NodeTable.has_cons.mp ht).1)
    · rw [Segment.cell, slots_of_marks hns]
      rfl

theorem finishSegments_turns {segments : List (Segment Pending)}
    (h : ∀ segment ∈ segments, ∀ p ∈ segment.args, p.Numbered ∧ p.Visited s (depth + 1)) :
    Turns s (Node.cellsOfSegments (segments.map (Segment.map Pending.node)))
      (segments.map fun segment => (segment.mark.slot, depth)).reverse
        (finishSegments depth segments)
      Node.cellsOfSegments fun ts => ts.map Segment.mark = segments.map Segment.mark := by
  induction segments with
  | nil => exact fun t _ _ => .pure ⟨rfl, nofun, rfl⟩
  | cons segment rest ih =>
    obtain ⟨hsegment, hrest⟩ := List.forall_mem_cons.mp h
    have hcells : ∀ (t : Segment Node) ts, Node.cellsOfSegments (t :: ts) =
        Node.cellsOfSegments [t] ++ Node.cellsOfSegments ts :=
        fun t ts => Node.cellsOfSegments_append [t] ts
    rw [List.map_cons, List.map_cons, List.reverse_cons, finishSegments_cons, hcells]
    refine (ih hrest).both ?_ (segment_turns hsegment) ?_
    · intro k ts k' hk hx
      rw [cellIds_cellsOfSegments] at hk ⊢
      rw [cellIds_cellsOfSegments]
      exact finishSegments_numbered (fun segment hs p hp => (hrest segment hs p hp).1) hk hx
    · intro t ts ht hts
      exact ⟨hcells t ts, congrArg₂ List.cons ht hts⟩

/-- Visiting a route is finishing its arguments. -/
theorem route_turns {segments : List (Segment Pending)}
    (h : ∀ segment ∈ segments, ∀ p ∈ segment.args, p.Numbered ∧ p.Visited s (depth + 1))
    (mark : Mark) (head : RouteHead) :
    Turns s (Node.route mark head (segments.map (Segment.map Pending.node))).cells
      [(mark.slot, depth)]
      (finishSegments depth segments >>= fun ts => pure (.route mark head ts)) Node.cells fun n =>
        n.mark = mark := by
  have hmark : ∀ segment : Segment Pending, (segment.map Pending.node).mark = segment.mark := by
    intro segment
    cases segment <;> rfl
  have hmarks : (segments.map (Segment.map Pending.node)).map (·.mark.slot) =
      segments.map (·.mark.slot) := by
    simp [hmark]
  rw [Node.cells]
  refine (finishSegments_turns h).wrap (fun t ht => ?_) fun ts hts => ⟨?_, rfl⟩
  · have hvisits : (segments.map fun segment => (segment.mark.slot, depth)) =
        ((segments.map (Segment.map Pending.node)).map (·.mark.slot)).map (·, depth) := by
      rw [hmarks, List.map_map]
      rfl
    rw [hvisits]
    exact run_bind_ok (@fetch_run t ⟨_, _⟩ (NodeTable.has_cons.mp ht).1)
  · have hslots : ts.map (·.mark.slot) = segments.map (·.mark.slot) := by
      have hslots := congrArg (List.map Mark.slot) hts
      rwa [List.map_map, List.map_map] at hslots
    rw [Node.cells, Node.cell, Node.cell, hslots, hmarks]

/-! ## Bars -/

/-- The block of what stands between bars, whose items wait for grouping. -/
def innerPending (mark : Mark) (inner : List Pending) : Pending where
  node := .block mark (inner.map Pending.node)
  finish depth := finishProducts depth inner >>= fun items => pure (.block mark items)

theorem innerPending_numbered {inner : List Pending} (h : ∀ p ∈ inner, p.Numbered) (mark : Mark) :
    (innerPending mark inner).Numbered := by
  intro depth k t k' hk hrun
  obtain ⟨items, k₁, hitems, hrun⟩ := Arranging.bind_ok hrun
  cases Arranging.pure_ok hrun
  have hk' : Below ([mark.slot] ++ pendingSlots inner) k := hk
  have hgrows := finishProducts_numbered h hk'.of_append.2 hitems
  exact hgrows.append (.refl (hk'.of_append.1.mono hgrows.le)) hk'

theorem innerPending_visited {inner : List Pending} (h : ∀ p ∈ inner, p.Waits s depth)
    (hdepth : depth ≤ s.limit) (mark : Mark) : (innerPending mark inner).Visited s depth := by
  intro t ht hD
  have ht' : t.Holds (.block mark (inner.map Pending.node)) := ht
  obtain ⟨hblock, hitems⟩ := NodeTable.holds_block.mp ht'
  have hids : cellIds (innerPending mark inner).node.cells = mark.slot :: pendingSlots inner :=
    cellIds_cells _
  rw [hids] at hD ⊢
  have hproducts := products_carriedOut h hdepth hblock (List.forall_mem_map.mp hitems) hD
  exact .step (hproducts.congr (visit_waiting h hdepth ht'))

/-- Visiting the call that replaces two bars is finishing it. -/
theorem absPending_waits {inner : List Pending} (h : ∀ p ∈ inner, p.Waits s (depth + 1))
    (hdepth : depth < s.limit) (k offset : Nat) : (absPending k offset inner).Waits s depth := by
  refine ⟨absPending_numbered (fun p hp => (h p hp).numbered) k offset, ?_, nofun, rfl⟩
  have hinner : ∀ p ∈ [innerPending ⟨k, offset⟩ inner], p.Numbered ∧ p.Visited s (depth + 1) :=
    List.forall_mem_singleton.mpr ⟨innerPending_numbered (fun p hp => (h p hp).numbered) _,
      innerPending_visited h hdepth _⟩
  have hroute :=
    @route_turns s depth [.member ⟨k + 1, offset⟩ "System" [], .member ⟨k + 2, offset⟩ "Math" [],
      .method ⟨k + 3, offset⟩ "Abs" [] [innerPending ⟨k, offset⟩ inner]]
    (List.forall_mem_cons.mpr
      ⟨nofun, List.forall_mem_cons.mpr ⟨nofun, List.forall_mem_singleton.mpr hinner⟩⟩)
    ⟨k + 4, offset⟩ .type
  have hfinish : (absPending k offset inner).finish depth = (finishSegments depth
      [.member ⟨k + 1, offset⟩ "System" [], .member ⟨k + 2, offset⟩ "Math" [],
        .method ⟨k + 3, offset⟩ "Abs" [] [innerPending ⟨k, offset⟩ inner]] >>=
      fun ts => pure (.route ⟨k + 4, offset⟩ .type ts)) := by
    simp [absPending, absNode, innerPending, finishSegments, finishArgs, finishAll]
  show Turns s _ _ ((absPending k offset inner).finish depth) _ _
  rw [hfinish]
  exact hroute

/-! ## Casts -/

section

variable {signs : List (Mark × Operator)} {operand : Item} {spans : List (Nat × List Item)}
  {before : List Item}

/-- A span that is open at the end has no end. -/
theorem bars_unclosed {items : List Item} (h : ∀ item ∈ items, item.operator? ≠ some .bar)
    (offset : Nat) (outer : List Item) :
    bars s depth ((offset, outer) :: spans) before items = fail (.parse offset .unclosedBar) := by
  induction items generalizing before with
  | nil => rfl
  | cons item rest ih =>
    obtain ⟨hitem, hrest⟩ := List.forall_mem_cons.mp h
    unfold bars
    rw [if_neg hitem, ih hrest]

theorem filter_bars_eq_nil (h : signs.filter (·.2 = .bar) = [])
    (hoperand : operand.operator? ≠ some .bar) :
    ∀ item ∈ signs.map signItem ++ [operand], item.operator? ≠ some .bar := by
  refine List.forall_mem_append.mpr
    ⟨List.forall_mem_map.mpr fun sign hsign => ?_, List.forall_mem_singleton.mpr hoperand⟩
  intro hbar
  exact List.filter_eq_nil_iff.mp h sign hsign (decide_eq_true (Option.some.inj hbar))

/-- Bars among operators open spans, each one inside the last, and the operand closes none. -/
theorem bars_signs {last : Mark × Operator}
    (hlast : (signs.filter (·.2 = .bar)).getLast? = some last)
    (hoperand : operand.operator? ≠ some .bar) (hopens : opens before = true) :
    bars s depth spans before (signs.map signItem ++ [operand]) =
      if s.limit < depth + spans.length + (signs.filter (·.2 = .bar)).length then fail s.tooDeep
      else fail (.parse last.1.offset .unclosedBar) := by
  induction signs generalizing spans before with
  | nil => cases hlast
  | cons sign signs ih =>
    rw [List.map_cons, List.cons_append]
    unfold bars
    by_cases hbar : sign.2 = .bar
    · have hop : (signItem sign).operator? = some .bar := congrArg some hbar
      have hfilter : (sign :: signs).filter (·.2 = .bar) = sign :: signs.filter (·.2 = .bar) := by
        simp [hbar]
      rw [hfilter] at hlast ⊢
      rw [if_pos hop, if_pos hopens, List.length_cons]
      by_cases hlimit : s.limit ≤ depth + spans.length
      · rw [if_pos hlimit, if_pos (by omega)]
      · rw [if_neg hlimit]
        cases hrest : (signs.filter (·.2 = .bar)).getLast? with
        | none =>
          rw [List.getLast?_eq_none_iff] at hrest
          rw [hrest] at hlast ⊢
          cases hlast
          rw [if_neg (by simp; omega), bars_unclosed (filter_bars_eq_nil hrest hoperand)]
          rfl
        | some last' =>
          rw [List.getLast?_cons, hrest] at hlast
          cases hlast
          rw [ih hrest rfl, List.length_cons]
          have hcount : depth + (spans.length + 1) + (signs.filter (·.2 = .bar)).length =
              depth + spans.length + ((signs.filter (·.2 = .bar)).length + 1) := by omega
          rw [hcount]
    · have hop : (signItem sign).operator? ≠ some .bar := fun h => hbar (Option.some.inj h)
      have hfilter : (sign :: signs).filter (·.2 = .bar) = signs.filter (·.2 = .bar) := by
        simp [hbar]
      rw [hfilter] at hlast ⊢
      rw [if_neg hop, ih hlast rfl]

/-- The second visit to a cast: its items stay as they are, if there is no bar among the
operators. -/
theorem signs_mimics {convert : Item} (hconvert : convert.operator? = none)
    (hoperand : operand.operator? ≠ some .bar) :
    Mimics t (bars s depth [] [] (convert :: (signs.map signItem ++ [operand])))
      (s.checkSigns depth signs)
      fun _ items t' => items = convert :: (signs.map signItem ++ [operand]) ∧ t' = t := by
  have hpass : convert.operator? ≠ some .bar := by
    rw [hconvert]
    nofun
  unfold Scope.checkSigns
  cases hlast : (signs.filter (·.2 = .bar)).getLast? with
  | none =>
    have hsigns := filter_bars_eq_nil (List.getLast?_eq_none_iff.mp hlast) hoperand
    have hsame := @bars_same s t depth _ (List.forall_mem_cons.mpr ⟨hpass, hsigns⟩) []
    simp only [hlast]
    cases signs.head? <;> exact Mimics.done hsame ⟨rfl, rfl⟩
  | some last =>
    cases signs with
    | nil => cases hlast
    | cons first signs =>
      simp only [hlast, List.head?_cons]
      unfold bars
      rw [if_neg hpass, List.map_cons, List.cons_append]
      unfold bars
      by_cases hbar : first.2 = .bar
      · have hop : (signItem first).operator? = some .bar := congrArg some hbar
        have hcloses : ¬ opens [convert] = true := by simp [opens, Item.isOperator, hconvert]
        rw [if_pos hbar, if_pos hop, if_neg hcloses]
        exact .fail
      · have hop : (signItem first).operator? ≠ some .bar := fun h => hbar (Option.some.inj h)
        have hfilter : (first :: signs).filter (·.2 = .bar) = signs.filter (·.2 = .bar) := by
          simp [hbar]
        rw [hfilter] at hlast ⊢
        rw [if_neg hbar, if_neg hop, bars_signs hlast hoperand rfl, List.length_nil, Nat.add_zero]
        split
        · exact .fail
        · exact .fail

/-- A cast is grouped: its operand is no factor but of the whole. -/
theorem group_signs {convert : Item} (hconvert : convert.operator? = none) :
    group (convert :: (signs.map signItem ++ [operand])) =
      pure (convert :: (signs.map signItem ++ [operand]), []) := by
  have hsigns : ∀ signs : List (Mark × Operator),
      firstRun? (signs.map signItem ++ [operand]) = none := by
    intro signs
    induction signs with
    | nil => exact firstRun?_singleton operand
    | cons sign signs ih =>
      rw [List.map_cons, List.cons_append, firstRun?, if_pos (by rfl), ih]
      rfl
  by_cases hmore : (factors (signs.map signItem ++ [operand])).1 = []
  · refine group_of_none ?_
    rw [firstRun?, if_pos (by simp [hmore]), hsigns]
    rfl
  · obtain ⟨op, factor, rest, o, hitems, hop, hmul, hfactor⟩ := factors_ne_nil hmore
    rcases signs with _ | ⟨sign, _ | ⟨second, signs⟩⟩
    · cases hitems
    · cases hitems
      have hfactors : factors [signItem sign, operand] = ([signItem sign, operand], []) := by
        simp [factors, hop, hmul, Item.isOperator, hfactor]
      have hrun : firstRun? [convert, signItem sign, operand] =
          some ⟨[], convert, [signItem sign, operand], []⟩ := by
        rw [firstRun?, hfactors, if_neg (by simp [Item.isOperator, hconvert])]
      exact (group_of_some hrun).trans (if_pos rfl)
    · cases hitems
      cases hfactor

end

/-- The cells of a cast beside its own and those of the operand. -/
def signCells (typeMark : Mark) (target : TypeName) (signs : List (Mark × Operator)) :
    List (Nat × Cell) :=
  (typeMark.slot, ⟨.convert target, typeMark.offset⟩) :: signs.map fun sign =>
    (sign.1.slot, signCell sign)

private theorem cells_cast (mark typeMark : Mark) (target : TypeName)
    (signs : List (Mark × Operator)) (operand : Node) :
    (Node.cast mark typeMark target signs operand).cells =
      (mark.slot, (Node.cast mark typeMark target signs operand).cell) ::
        (signCells typeMark target signs ++ operand.cells) := by
  rw [Node.cells]
  rfl

/-- The items of a cast. -/
def castItems (typeMark : Mark) (target : TypeName) (signs : List (Mark × Operator))
    (operand : Pending) : List Item :=
  ⟨typeMark.slot, ⟨.convert target, typeMark.offset⟩⟩ :: (signs.map signItem ++ [operand.item])

section

variable {operand : Pending} {mark typeMark : Mark} {target : TypeName}
  {signs : List (Mark × Operator)}

/-- A cast in the table is the block of its items. -/
theorem cast_items (ht : t.Holds (.cast mark typeMark target signs operand.node)) :
    (Node.cast mark typeMark target signs operand.node).cell.entry =
      .block ((castItems typeMark target signs operand).map Item.id) ∧
    ∀ item ∈ castItems typeMark target signs operand, t.get? item.id = some item.cell := by
  obtain ⟨-, htype, hsigns, hnode⟩ := NodeTable.holds_cast.mp ht
  refine ⟨by simp [castItems, Node.cell, signItem, Pending.item, Node.item],
    List.forall_mem_cons.mpr ⟨htype, ?_⟩⟩
  exact List.forall_mem_append.mpr
    ⟨List.forall_mem_map.mpr hsigns, List.forall_mem_singleton.mpr hnode.get?⟩

theorem visits_cast : ((castItems typeMark target signs operand).map
    fun item => (item.id, if item.isBlock then depth + 1 else depth)).reverse =
      [(operand.node.mark.slot, itemDepth depth operand.node)] ++
        ((signCells typeMark target signs).map fun e => (e.1, depth)).reverse := by
  have hsigns :
      (signs.map signItem).map (fun item => (item.id, if item.isBlock then depth + 1 else depth)) =
      signs.map fun sign => (sign.1.slot, depth) := by
    rw [List.map_map]
    rfl
  have hoperand := visits_items depth [operand]
  simp only [List.map_singleton] at hoperand
  rw [castItems, List.map_cons, List.map_append, List.map_singleton, hsigns,
    List.cons.inj hoperand |>.1]
  simp [signCells, Item.isBlock]

/-- The operand of a cast is visited first, and then its operators and its type, which are left as
they are. -/
theorem operand_turns (hnumbered : operand.Numbered)
    (hvisited : operand.Visited s (itemDepth depth operand.node)) :
    Turns s (signCells typeMark target signs ++ operand.node.cells)
      ([(operand.node.mark.slot, itemDepth depth operand.node)] ++
        ((signCells typeMark target signs).map fun e => (e.1, depth)).reverse)
      (operand.finish (itemDepth depth operand.node))
        (fun n => signCells typeMark target signs ++ n.cells)
      fun n => n.mark = operand.node.mark := by
  have hleaves : ∀ e ∈ signCells typeMark target signs, e.2.entry.isLeaf = true :=
    List.forall_mem_cons.mpr ⟨rfl, List.forall_mem_map.mpr fun _ _ => rfl⟩
  have hboth :=
    hvisited.both (g := fun _ n => n) (C := fun n => signCells typeMark target signs ++ n.cells)
    (R := fun n => n.mark = operand.node.mark) ?_ (Turns.leaves hleaves depth)
      fun _ _ _ hn => ⟨rfl, hn⟩
  · simpa using hboth
  · intro k n k' hk hx
    rw [cellIds_cells] at hk ⊢
    rw [cellIds_cells]
    exact hnumbered _ _ _ _ hk hx

/-- Visiting a cast is finishing its operand, once it has been checked. -/
theorem pendCast_visited (hnumbered : operand.Numbered)
    (hvisited : operand.Visited s (itemDepth depth operand.node))
    (hcast : s.castTarget? operand.node = none) (hoperand : operand.node.operator? = none) :
    (s.pendCast mark typeMark target signs operand).Visited s depth := by
  intro t ht hD
  have ht' : t.Holds (.cast mark typeMark target signs operand.node) := ht
  obtain ⟨hentry, hitems⟩ := cast_items ht'
  have hcells := cells_cast mark typeMark target signs operand.node
  rw [show (s.pendCast mark typeMark target signs operand).node.cells = _ from hcells] at ht hD ⊢
  obtain ⟨hblock, hparts⟩ := NodeTable.has_cons.mp ht
  obtain ⟨hmark, hnodup⟩ := List.nodup_cons.mp hD
  have hcasts : ∀ item ∈ castItems typeMark target signs operand,
      (castTarget? s item).run t = .ok (none, t) := by
    refine List.forall_mem_cons.mpr
      ⟨rfl, List.forall_mem_append.mpr ⟨List.forall_mem_map.mpr fun _ _ => rfl, ?_⟩⟩
    rw [List.forall_mem_singleton, ← hcast]
    exact castTarget?_run (NodeTable.holds_cast.mp ht').2.2.2
  have hbar : operand.item.operator? ≠ some .bar := by
    rw [Pending.operator?_item, hoperand]
    nofun
  refine .step (.congr ?_ (@visit_block s t depth ⟨mark.slot, _⟩ _ hblock hentry hitems))
  refine .check checkDepth_mimics fun _ _ hdepth =>
    .read (casts_same hcasts) (.check (signs_mimics rfl hbar) ?_)
  rintro - _ rfl
  have hregroup := @regroup_same t depth ⟨mark.slot, _⟩ _ hblock hentry (group_signs rfl)
  rw [visits_cast] at hregroup
  refine .same hregroup ?_
  refine (operand_turns hnumbered hvisited _ hparts hnodup).map
    (fun i hi => .inl (List.mem_cons_of_mem _ hi)) ?_
  rintro n steps t' hsame ⟨hsteps, hhas, hn⟩
  have hcell :
      (Node.cast mark typeMark target signs n).cell =
      (Node.cast mark typeMark target signs operand.node).cell := by
    rw [Node.cell, Node.cell, hn]
  rw [cells_cast, hcell]
  refine ⟨by rw [List.length_cons, hsteps], NodeTable.has_cons.mpr ⟨?_, hhas⟩, rfl⟩
  rw [hsame.get? mark.slot (NodeTable.lt_size_of_get? hblock) hmark]
  exact hblock

end

/-! ## Blocks -/

/-- Visiting the node is finishing it, at whatever level. -/
structure Pending.Ready (s : Scope) (p : Pending) : Prop where
  numbered : p.Numbered
  visited : ∀ depth, p.Visited s depth

/-- What waits in a block after casts are formed. -/
structure Pending.ReadyItem (s : Scope) (p : Pending) : Prop where
  ready : p.Ready s
  noCast : s.castTarget? p.node = none

theorem casts_ready (h : ∀ p ∈ ps, p.Ready s) :
    (s.casts ps).Ends (fun qs => ∀ q ∈ qs, q.ReadyItem s) fun _ => True := by
  refine Scope.casts_forall (fun hp hnone => ⟨hp, hnone⟩) ?_ (fun _ _ => trivial) h
  intro p operand target mark typeMark signs _ _ hoperator hoperand _ _ _
  refine ⟨⟨Scope.pendCast_numbered hoperand.ready.numbered, fun depth => ?_⟩, rfl⟩
  exact pendCast_visited hoperand.ready.numbered (hoperand.ready.visited _)
    hoperand.noCast hoperator

theorem bars_waits (h : ∀ p ∈ ps, p.ReadyItem s) :
    (s.bars depth [] [] ps).Ends (fun qs => ∀ q ∈ qs, q.Waits s depth) fun _ => True := by
  refine Scope.bars_forall (fun hp hbar => ?_) ?_ (fun _ _ => trivial) trivial trivial (by simp) h
  · exact ⟨hp.ready.numbered, hp.ready.visited _, hbar, hp.noCast⟩
  · intro depth bar inner k _ _ hlimit _ hinner
    exact absPending_waits hinner hlimit k _

/-- **Visiting a block is arranging its items.** -/
theorem finishBlock_turns (h : ∀ p ∈ ps, p.Ready s) (mark : Mark) (depth : Nat) :
    Turns s (Node.block mark (ps.map Pending.node)).cells [(mark.slot, depth)]
      (s.finishBlock depth mark ps) Node.cells fun n => n.mark = mark := by
  intro t ht hD
  have ht' : t.Holds (.block mark (ps.map Pending.node)) := ht
  obtain ⟨hblock, hnodes⟩ := NodeTable.holds_block.mp ht'
  replace hnodes := List.forall_mem_map.mp hnodes
  have hids :
      cellIds (Node.block mark (ps.map Pending.node)).cells = mark.slot :: pendingSlots ps :=
      cellIds_cells _
  have hslots := ht.below hD
  rw [hids] at hD hslots ⊢
  have hbelow := Below.of_append (S := [mark.slot]) hslots
  obtain ⟨hmark, -⟩ := List.nodup_cons.mp hD
  have hitems : ∀ item ∈ ps.map Pending.item, t.get? item.id = some item.cell :=
    List.forall_mem_map.mpr fun p hp => (hnodes p hp).item_get?
  have hentry :
      (Node.block mark (ps.map Pending.node)).cell.entry =
      .block ((ps.map Pending.item).map Item.id) := by
    rw [ids_items]
    rfl
  refine .step (.congr ?_ (@visit_block s t depth ⟨mark.slot, _⟩ _ hblock hentry hitems))
  refine .check checkDepth_mimics fun _ _ hdepth => ?_
  refine .pass (fun qs => mark.slot :: pendingSlots qs) (casts_mimics hnodes) ?_
  rintro qs _ t₁ hext hcasts ⟨rfl, hqs⟩
  obtain ⟨hnumbered, hgrows⟩ := Scope.casts_numbered (fun p hp => (h p hp).numbered) hbelow.2 hcasts
  have hready := (casts_ready h).ok hcasts
  refine ⟨hgrows.mem_cons _,
    .pass (fun rs => mark.slot :: pendingSlots rs) (@bars_mimics s t₁ depth [] [] qs hqs) ?_⟩
  rintro rs _ t₂ hext' hbars ⟨rfl, hrs⟩
  have hgrows' :=
    (@Scope.bars_numbered s depth [] [] qs rs hnumbered _ _ (hgrows.below hbelow.2) hbars).2
  refine ⟨hgrows'.mem_cons _, products_carriedOut ((bars_waits hready).ok hbars) hdepth ?_ hrs ?_⟩
  · exact hext' _ _ (hext _ _ hblock)
  · have hnew := (hgrows.trans hgrows').not_mem hmark (NodeTable.lt_size_of_get? hblock)
    exact List.nodup_cons.mpr ⟨hnew, hgrows'.nodup⟩

namespace Node

/-- **Visiting a node that was read is finishing it.** -/
theorem pend_ready (s : Scope) (n : Node) (hn : PlainItem n) : (n.pend s).Ready s := by
  refine ⟨pend_numbered s n, ?_⟩
  induction n using Node.induct with
  | block mark items ih =>
    intro depth
    have hitems : ∀ p ∈ items.map (pend s), p.Ready s := List.forall_mem_map.mpr fun n hmem =>
      ⟨pend_numbered s n, ih n hmem (plainItem_of_block hn n hmem)⟩
    have hblock := finishBlock_turns hitems mark depth
    rw [nodes_pend] at hblock
    simp only [Pending.Visited, pend, pendAll_eq_map]
    exact hblock
  | route mark head segments ih =>
    intro depth
    have hargs : ∀ segment ∈ segments.map (Segment.map (pend s)), ∀ p ∈ segment.args,
        p.Numbered ∧ p.Visited s (depth + 1) :=
      forall_pend_args fun segment hs n hmem =>
        ⟨pend_numbered s n, ih segment hs n hmem (plainItem_of_route hn segment hs n hmem) _⟩
    have hroute := route_turns hargs mark head
    rw [segments_pend] at hroute
    simp only [Pending.Visited, pend, pendSegments_eq_map]
    exact hroute
  | cast => exact (not_plainItem_cast hn).elim
  | constant | operator | unresolved =>
    intro depth
    simp only [Pending.Visited, pend, cells, mark]
    exact .leaf rfl rfl rfl

end Node

namespace NodeTable

/-! ## Tables that hold what was read -/

/-- There are no more distinct numbers below `k` than `k`. -/
theorem length_le_of_below {S : List Nat} {k : Nat} (h : Below S k) : S.length ≤ k := by
  have hrange : S ⊆ List.range k := fun i hi => List.mem_range.mpr (h.2 i hi)
  simpa using (List.Nodup.subperm h.1 hrange).length_le

/-- The worklist comes from the root to its end in no more than the given number of steps. -/
def Ends (s : Scope) (t : NodeTable) (root steps : Nat)
    (outcome : Except TableFault NodeTable) : Prop :=
  ∀ more, run s (steps + more) t [(root, 0)] = some outcome

/-- **Arranging a table ends, loses nothing and leaves a tree.** A text was read to a tree, and a
table of as many cells holds it. Whatever the scope, the worklist comes to an end. Where arranging
the tree succeeds, each cell of the arranged tree was visited once, and the table holds that tree in
place of the first: each number that is reached from the root has a cell and is a part of one other,
in one place, and no path is a circle; the words are those of the tree that was read, in the same
order. Otherwise it ends with the error of arranging. -/
theorem run_arranges {limit : Nat} {source : String} {root : Node} {nodes : Nat}
    (h : Node.ofSource limit source = .ok (root, nodes)) (s : Scope) {t : NodeTable}
    (hsize : t.size = nodes) (ht : t.Holds root) :
    match (root.arrange s).run nodes with
    | .ok (n, nodes') =>
      ∃ t', t.Ends s root.mark.slot nodes' (.ok t') ∧ t'.size = nodes' ∧ t'.Holds n ∧
        n.mark = root.mark ∧ t'.IsTree root.mark.slot ∧
        n.words nodes (fun _ => none) = root.words nodes s.castTarget?
    | .error e => (∃ steps, t.Ends s root.mark.slot steps (.error (.build e))) ∧
        (e = s.tooDeep ∨ e.isParse = true) := by
  obtain ⟨hroot, hplain⟩ := Node.ofSource_yields h
  have hwords := Node.arrange_words hroot s nodes (Nat.le_refl nodes)
  have hturns := (Node.pend_ready s root (.inr hplain)).visited 0
  rw [Pending.Visited, Node.pend_node] at hturns
  have hvisit := hturns t ht (cellIds_cells root ▸ hroot.1)
  subst hsize
  rcases hrun : (root.arrange s).run t.size with e | ⟨n, nodes'⟩
  · rw [hrun] at hwords
    obtain ⟨steps, hend⟩ := hvisit.error hrun
    exact ⟨⟨steps, fun more => hend [] more⟩, hwords⟩
  · rw [hrun] at hwords
    obtain ⟨steps, t', hend, rfl, -, hsteps, hcells, hmark⟩ := hvisit.ok hrun
    have hnumbered := Node.arrange_numbered hroot hrun
    have hle : steps ≤ t'.size := by
      rw [hsteps, ← List.length_map (f := Prod.fst), Node.cells_slots]
      exact length_le_of_below hnumbered
    refine ⟨t', fun more => ?_, rfl, hcells, hmark, ?_, hwords.2⟩
    · have hmore : t'.size + more = steps + (t'.size - steps + more) := by omega
      rw [hmore]
      exact (hend [] _).trans (by cases t'.size - steps + more <;> rfl)
    · rw [← hmark]
      exact Holds.isTree hcells hnumbered.1

/-- With a cast, bars and a product: eighteen words, in more cells than were read. -/
theorem run_arranges_cast_bars :
    let s : Scope := ⟨(Registry.standard []).host, ⟨none, [⟨"x", .i32⟩]⟩, 128⟩
    ∃ root nodes n nodes' t', Node.ofSource 128 "(decimal)-x + |x * (1 + x)|" = .ok (root, nodes) ∧
      (root.arrange s).run nodes = .ok (n, nodes') ∧ nodes < nodes' ∧
      (n.words nodes fun _ => none).length = 18 ∧
      (root.table nodes).Ends s root.mark.slot nodes' (.ok t') ∧ t'.Holds n ∧
        t'.IsTree root.mark.slot ∧
      n.words nodes (fun _ => none) = root.words nodes s.castTarget? := by
  intro s
  obtain ⟨⟨root, nodes⟩, hread, hok⟩ : ∃ r,
      Node.ofSource 128 "(decimal)-x + |x * (1 + x)|" = .ok r ∧
      ((r.1.arrange s).run r.2).toOption.any (fun t =>
        r.2 < t.2 ∧ (t.1.words r.2 fun _ => none).length = 18) = true :=
    Except.exists_ok (by decide +kernel)
  obtain ⟨⟨n, nodes'⟩, hrun, hnodes, hlength⟩ := Except.exists_ok hok
  have hall :=
    run_arranges hread s (root.size_table nodes) (Node.ofSource_yields hread).1.holds_table
  rw [hrun] at hall
  obtain ⟨t', hends, -, hholds, -, htree, hwords⟩ := hall
  exact ⟨root, nodes, n, nodes', t', hread, hrun, hnodes, hlength, hends, hholds, htree, hwords⟩

end NodeTable

end Formula
