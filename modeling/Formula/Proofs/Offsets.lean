import Formula.Proofs.BindLogic
import Formula.Proofs.Passes
import Formula.Proofs.Transparency

/-!
# Offsets of faults

A parse error is reported at the offset of a mark. Let all offsets of a tree have a property `B`.
Then arranging reports errors at such offsets only, and makes a tree with such offsets
(`Node.arrange_offsets`). Binding reports errors at no others either, whatever slots are filled
(`Node.resolve_reports`).
-/

namespace Formula

variable {B : Nat → Prop}

/-- A parse error has an offset with `B`. -/
def BuildError.ReportedIn (B : Nat → Prop) (e : BuildError) : Prop :=
  ∀ offset fault, e = .parse offset fault → B offset

theorem reportedIn_parse {offset : Nat} {fault : ParseFault} (h : B offset) :
    (BuildError.parse offset fault).ReportedIn B := by
  rintro _ _ he
  cases he
  exact h

theorem reportedIn_of_not_parse {e : BuildError} (h : e.isParse = false) : e.ReportedIn B := by
  rintro _ _ rfl
  cases h

/-- All offsets of a tree have `B`. -/
def Node.OffsetsIn (B : Nat → Prop) (n : Node) : Prop := ∀ e ∈ n.elements, ∀ m ∈ e.marks, B m.offset

namespace Node

theorem offsetsIn_block {mark : Mark} {items : List Node} :
    (Node.block mark items).OffsetsIn B ↔ B mark.offset ∧ ∀ n ∈ items, n.OffsetsIn B := by
  unfold OffsetsIn
  rw [forall_elements_block]
  exact and_congr_left fun _ => List.forall_mem_singleton

theorem offsetsIn_cast {mark typeMark : Mark} {target : TypeName} {signs : List (Mark × Operator)}
    {operand : Node} : (Node.cast mark typeMark target signs operand).OffsetsIn B ↔
      (B mark.offset ∧ B typeMark.offset ∧ ∀ sign ∈ signs, B sign.1.offset) ∧
        operand.OffsetsIn B := by
  unfold OffsetsIn
  rw [forall_elements_cast]
  simp only [Element.marks, List.forall_mem_cons, List.forall_mem_map]

theorem offsetsIn_route {mark : Mark} {head : RouteHead} {segments : List (Segment Node)} :
    (Node.route mark head segments).OffsetsIn B ↔
      B mark.offset ∧ ∀ segment ∈ segments, B segment.mark.offset ∧
        ∀ n ∈ segment.args, n.OffsetsIn B := by
  unfold OffsetsIn
  rw [forall_elements_route]
  simp only [Element.marks, List.forall_mem_singleton, Element.mark, Node.mark]

theorem OffsetsIn.offset {n : Node} (h : n.OffsetsIn B) : B n.offset :=
  h _ n.elements_self _ (Element.mark_mem_marks _)

end Node

/-! ## Arranging -/

/-- The offset of a node that waits has `B`, and finishing it makes nodes and errors with such
offsets. -/
structure Pending.OffsetsIn (B : Nat → Prop) (p : Pending) : Prop where
  offset : B p.node.offset
  finish (d : Nat) : (p.finish d).Ends (Node.OffsetsIn B) (BuildError.ReportedIn B)

variable {s : Scope} {ps : List Pending}

/-! ### Products -/

theorem finishProducts_offsets (h : ∀ p ∈ ps, p.OffsetsIn B) (depth : Nat) :
    (finishProducts depth ps).Ends (fun ns => ∀ n ∈ ns, n.OffsetsIn B)
      (BuildError.ReportedIn B) := by
  refine (finishProducts_ends fun p hp => (h p hp).finish _).mono ?_ fun _ he => he
  rintro _ ⟨pieces, rfl, hpieces⟩
  rw [← productRuns_flatten ps] at h
  refine List.forall_mem_flatten.mpr fun piece hpiece => ?_
  obtain ⟨run, hrun, items, hitems, hcase⟩ := exists_of_forall₂ hpieces hpiece
  have hin : ∀ n ∈ items, n.OffsetsIn B :=
    fun n hn => (exists_of_forall₂ hitems hn).elim fun _ hn => hn.2
  rcases hcase with ⟨-, rfl⟩ | ⟨-, mark, rfl, p, hp, hmark⟩
  · exact hin
  · have hoffset := (h p (List.mem_flatten.mpr ⟨run, hrun, hp⟩)).offset
    exact List.forall_mem_singleton.mpr (Node.offsetsIn_block.mpr ⟨hmark ▸ hoffset, hin⟩)

/-! ### Casts -/

theorem Scope.checkDepth_reports (s : Scope) (depth : Nat) :
    (s.checkDepth depth).Ends (fun _ => True) (BuildError.ReportedIn B) := by
  refine (s.checkDepth_ends depth).mono (fun _ _ => trivial) ?_
  rintro _ rfl
  exact reportedIn_of_not_parse rfl

theorem Scope.checkSigns_reports (depth : Nat) {signs : List (Mark × Operator)}
    (h : ∀ sign ∈ signs, B sign.1.offset) :
    (s.checkSigns depth signs).Ends (fun _ => True) (BuildError.ReportedIn B) := by
  unfold Scope.checkSigns
  simp only
  split
  · rename_i first last hfirst hlast
    split
    · exact .throw (reportedIn_parse (h first (List.mem_of_mem_head? hfirst)))
    · split
      · exact .throw (reportedIn_of_not_parse rfl)
      · have hmem := List.mem_of_mem_filter (List.mem_of_getLast? hlast)
        exact .throw (reportedIn_parse (h last hmem))
  · exact .pure trivial

theorem Scope.pendCast_offsets {mark typeMark : Mark} {target : TypeName}
    {signs : List (Mark × Operator)} {operand : Pending} (hmark : B mark.offset)
    (htype : B typeMark.offset) (hsigns : ∀ sign ∈ signs, B sign.1.offset)
    (h : operand.OffsetsIn B) :
    (s.pendCast mark typeMark target signs operand).OffsetsIn B where
  offset := hmark
  finish d := by
    refine (s.checkDepth_reports d).bind fun _ _ =>
      (Scope.checkSigns_reports d hsigns).bind fun _ _ => ?_
    refine (h.finish _).bind fun n hn => .pure ?_
    exact Node.offsetsIn_cast.mpr ⟨⟨hmark, htype, hsigns⟩, hn⟩

theorem Scope.casts_offsets (h : ∀ p ∈ ps, p.OffsetsIn B) :
    (s.casts ps).Ends (fun qs => ∀ q ∈ qs, q.OffsetsIn B) (BuildError.ReportedIn B) := by
  refine Scope.casts_forall (fun hp _ => hp) ?_ (fun _ hp => reportedIn_parse hp.offset) h
  intro p operand target mark typeMark signs hp _ _ hoperand hmark htype hsigns
  refine Scope.pendCast_offsets (hmark ▸ hp.offset) (htype ▸ hp.offset)
    (fun sign hsign => ?_) hoperand
  obtain ⟨q, hq, hnode⟩ := hsigns sign hsign
  have hoffset := hq.offset
  rwa [hnode] at hoffset

/-! ### Bars -/

private theorem absNode_offsets {offset : Nat} (hoffset : B offset) {items : List Node}
    (h : ∀ n ∈ items, n.OffsetsIn B) (k : Nat) : (absNode k offset items).OffsetsIn B := by
  refine Node.offsetsIn_route.mpr ⟨hoffset, ?_⟩
  simp only [List.forall_mem_cons, Segment.args, Segment.mark]
  exact ⟨⟨hoffset, by simp⟩, ⟨hoffset, by simp⟩,
    ⟨hoffset, Node.offsetsIn_block.mpr ⟨hoffset, h⟩, by simp⟩, by simp⟩

theorem absPending_offsets {offset : Nat} (hoffset : B offset)
    (h : ∀ p ∈ ps, p.OffsetsIn B) (k : Nat) :
    (absPending k offset ps).OffsetsIn B where
  offset := hoffset
  finish d := (finishProducts_offsets h (d + 1)).bind fun _ hitems =>
    .pure (absNode_offsets hoffset hitems k)

theorem Scope.bars_offsets (h : ∀ p ∈ ps, p.OffsetsIn B) (depth : Nat) :
    (s.bars depth [] [] ps).Ends (fun qs => ∀ q ∈ qs, q.OffsetsIn B) (BuildError.ReportedIn B) :=
  Scope.bars_forall (W := fun _ p => p.OffsetsIn B) (fun hp _ => hp)
    (fun k hbar _ _ _ hinner => absPending_offsets hbar.offset hinner k)
    (fun _ hp => reportedIn_parse hp.offset) (reportedIn_of_not_parse rfl) trivial (by simp) h

/-! ### Trees -/

theorem Scope.finishBlock_offsets {mark : Mark} (hmark : B mark.offset)
    (h : ∀ p ∈ ps, p.OffsetsIn B) (depth : Nat) :
    (s.finishBlock depth mark ps).Ends (Node.OffsetsIn B) (BuildError.ReportedIn B) := by
  refine (s.checkDepth_reports depth).bind fun _ _ => (Scope.casts_offsets h).bind fun qs hqs => ?_
  refine (Scope.bars_offsets hqs depth).bind fun rs hrs => ?_
  exact (finishProducts_offsets hrs depth).bind fun ns hns =>
    .pure (Node.offsetsIn_block.mpr ⟨hmark, hns⟩)

theorem finishSegments_offsets {segments : List (Segment Pending)}
    (h : ∀ segment ∈ segments, B segment.mark.offset ∧ ∀ p ∈ segment.args, p.OffsetsIn B)
    (depth : Nat) :
    (finishSegments depth segments).Ends
      (fun ts => ∀ t ∈ ts, B t.mark.offset ∧ ∀ n ∈ t.args, n.OffsetsIn B)
        (BuildError.ReportedIn B) := by
  refine (finishSegments_ends fun segment hs p hp => ((h segment hs).2 p hp).finish _).mono ?_
    fun _ he => he
  intro ts hts t ht
  obtain ⟨segment, hs, hrel⟩ := exists_of_forall₂ hts ht
  refine ⟨?_, fun n hn => (exists_of_forall₂ hrel.args hn).elim fun _ hn => hn.2⟩
  have hmark := (h segment hs).1
  cases hrel <;> exact hmark

namespace Node

theorem pend_offsets (s : Scope) (n : Node) (h : n.OffsetsIn B) : (n.pend s).OffsetsIn B := by
  induction n using Node.induct with
  | block mark items ih =>
    obtain ⟨hmark, hitems⟩ := offsetsIn_block.mp h
    refine ⟨by rw [pend_node]; exact hmark, fun d => ?_⟩
    simp only [pend, pendAll_eq_map]
    exact Scope.finishBlock_offsets hmark
      (List.forall_mem_map.mpr fun n hn => ih n hn (hitems n hn)) d
  | cast mark typeMark target signs operand ih =>
    obtain ⟨⟨hmark, htype, hsigns⟩, hoperand⟩ := offsetsIn_cast.mp h
    rw [pend]
    exact Scope.pendCast_offsets hmark htype hsigns (ih hoperand)
  | route mark head segments ih =>
    obtain ⟨hmark, hsegments⟩ := offsetsIn_route.mp h
    refine ⟨by rw [pend_node]; exact hmark, fun d => ?_⟩
    simp only [pend, pendSegments_eq_map]
    have hpending : ∀ segment ∈ segments.map (Segment.map (pend s)),
        B segment.mark.offset ∧ ∀ p ∈ segment.args, p.OffsetsIn B := by
      refine List.forall_mem_map.mpr fun segment hs => ?_
      rw [Segment.mark_map, Segment.args_map]
      exact ⟨(hsegments segment hs).1,
        List.forall_mem_map.mpr fun n hn => ih segment hs n hn ((hsegments segment hs).2 n hn)⟩
    exact (finishSegments_offsets hpending d).bind fun ts hts =>
      .pure (offsetsIn_route.mpr ⟨hmark, hts⟩)
  | constant mark v => exact ⟨h.offset, fun _ => .pure h⟩
  | operator mark op => exact ⟨h.offset, fun _ => .pure h⟩
  | unresolved mark raw => exact ⟨h.offset, fun _ => .pure h⟩

/-- **Arranging** reports errors at offsets of the tree, and makes nodes at no others. -/
theorem arrange_offsets (s : Scope) {root : Node} (h : root.OffsetsIn B) :
    (root.arrange s).Ends (OffsetsIn B) (BuildError.ReportedIn B) :=
  (root.pend_offsets s h).finish 0

end Node

/-! ## Binding -/

namespace Resolving

/-- Whatever slots are filled, parse errors have offsets with `B`. -/
def Reports {α : Type} (B : Nat → Prop) (x : Resolving α) : Prop :=
  ∀ slots e, (x.run slots).1 = .error e → e.ReportedIn B

namespace Reports

variable {α β : Type}

theorem pure (a : α) : Reports B (pure a : Resolving α) := nofun

theorem throw {e : BuildError} (h : e.ReportedIn B) : Reports B (throw e : Resolving α) := by
  rintro slots _ ⟨⟩
  exact h

theorem bind {x : Resolving α} {f : α → Resolving β} (hx : Reports B x)
    (hf : ∀ a, Reports B (f a)) :
    Reports B (x >>= f) := by
  intro slots e he
  rw [run_bind] at he
  rcases hrun : x.run slots with ⟨e' | a, next⟩
  · rw [hrun] at he
    cases he
    exact hx slots _ (congrArg Prod.fst hrun)
  · rw [hrun] at he
    exact hf a next e he

theorem keep {x : Resolving Bound} (hx : Reports B x) (slot : Nat) :
    Reports B (BindMonad.keep slot x) := by
  intro slots e he
  cases hget : slots.get? slot with
  | some b =>
    rw [run_keep_filled x hget] at he
    cases he
  | none =>
    rw [run_keep x hget] at he
    rcases hrun : x.run slots with ⟨e' | b, next⟩
    · rw [hrun] at he
      cases he
      exact hx slots _ (congrArg Prod.fst hrun)
    · rw [hrun] at he
      cases he

end Reports

end Resolving

end Formula
