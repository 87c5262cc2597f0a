import Formula.Proofs.Arranging
import Mathlib.Data.List.Forall2

/-!
# How arranging ends

`x.Ends P E`: wherever counting starts, the computation `x` makes something with `P`, or fails with
an error with `E`. So one statement says both what a pass makes and when it refuses.

* `finishAll_ends`: nodes are finished one by one.
* `finishProducts_ends`: the items of a block are finished run by run, and a run of several items
  becomes one block, unless it is the only run.
-/

namespace Formula

namespace Arranging

variable {α β : Type} {P P' : α → Prop} {Q : β → Prop} {E E' : BuildError → Prop}

/-- From every count the outcome is a result with `P` or an error with `E`. -/
def Ends (x : Arranging α) (P : α → Prop) (E : BuildError → Prop) : Prop :=
  ∀ k, match x.run k with
    | .ok (a, _) => P a
    | .error e => E e

namespace Ends

theorem pure {a : α} (h : P a) : (pure a : Arranging α).Ends P E := fun _ => h

theorem throw {e : BuildError} (h : E e) : (throw e : Arranging α).Ends P E := fun _ => h

theorem newMark (offset : Nat) : (newMark offset).Ends (fun mark => mark.offset = offset) E :=
  fun _ => rfl

theorem bind {x : Arranging α} {f : α → Arranging β} (h : x.Ends P E)
    (hf : ∀ a, P a → (f a).Ends Q E) : (x >>= f).Ends Q E := by
  intro k
  have hx := h k
  rw [StateT.run_bind]
  rcases hrun : x.run k with e | ⟨a, k'⟩
  · rw [hrun] at hx
    exact hx
  · rw [hrun] at hx
    exact hf a hx k'

theorem mono {x : Arranging α} (h : x.Ends P E) (hP : ∀ a, P a → P' a) (hE : ∀ e, E e → E' e) :
    x.Ends P' E' := by
  intro k
  have hx := h k
  rcases hrun : x.run k with e | ⟨a, k'⟩
  · rw [hrun] at hx
    exact hE e hx
  · rw [hrun] at hx
    exact hP a hx

theorem and {x : Arranging α} (h : x.Ends P E) (h' : x.Ends P' E) :
    x.Ends (fun a => P a ∧ P' a) E := by
  intro k
  have hx := h k
  have hx' := h' k
  rcases hrun : x.run k with e | ⟨a, k'⟩
  · rw [hrun] at hx
    exact hx
  · rw [hrun] at hx hx'
    exact ⟨hx, hx'⟩

/-- The results and the errors of a computation are what its runs end in. -/
theorem of_runs (x : Arranging α) :
    x.Ends (fun a => ∃ k k', x.run k = .ok (a, k')) (fun e => ∃ k, x.run k = .error e) := by
  intro k
  rcases hrun : x.run k with e | ⟨a, k'⟩
  · exact ⟨k, hrun⟩
  · exact ⟨k, k', hrun⟩

theorem ok {x : Arranging α} (h : x.Ends P E) {k k' : Nat} {a : α} (hx : x.run k = .ok (a, k')) :
    P a := by
  have hk := h k
  rwa [hx] at hk

theorem error {x : Arranging α} (h : x.Ends P E) {k : Nat} {e : BuildError}
    (hx : x.run k = .error e) : E e := by
  have hk := h k
  rwa [hx] at hk

end Ends

end Arranging

theorem exists_of_forall₂ {α β : Type} {R : α → β → Prop} {xs : List α} {ys : List β}
    (h : List.Forall₂ R xs ys) {y : β} (hy : y ∈ ys) : ∃ x ∈ xs, R x y := by
  induction h with
  | nil => simp at hy
  | cons hR _ ih =>
    rcases List.mem_cons.mp hy with rfl | hy
    · exact ⟨_, List.mem_cons_self, hR⟩
    · obtain ⟨x, hx, hxy⟩ := ih hy
      exact ⟨x, List.mem_cons_of_mem _ hx, hxy⟩

theorem map_eq_map_iff_forall₂ {α β γ : Type} {f : α → γ} {g : β → γ} {as : List α} {bs : List β} :
    as.map f = bs.map g ↔ List.Forall₂ (fun a b => f a = g b) as bs := by
  rw [← List.forall₂_eq_eq_eq, List.forall₂_map_left_iff, List.forall₂_map_right_iff]

/-- The same segment, with arguments that compare one by one. -/
inductive Segment.Rel {α β : Type} (R : α → β → Prop) : Segment α → Segment β → Prop
  | member (mark : Mark) (name : String) (generics : List TypeName) :
    Rel R (.member mark name generics) (.member mark name generics)
  | method {args : List α} {args' : List β} (mark : Mark) (name : String) (generics : List TypeName)
      (h : List.Forall₂ R args args') :
    Rel R (.method mark name generics args) (.method mark name generics args')
  | indexer {args : List α} {args' : List β} (mark : Mark) (h : List.Forall₂ R args args') :
    Rel R (.indexer mark args) (.indexer mark args')

theorem Segment.Rel.args {α β : Type} {R : α → β → Prop} {s : Segment α} {t : Segment β}
    (h : Segment.Rel R s t) : List.Forall₂ R s.args t.args := by
  cases h with
  | member => exact .nil
  | method mark name generics h => exact h
  | indexer mark h => exact h

/-! ## Nodes and runs -/

variable {R : Pending → Node → Prop} {E : BuildError → Prop} {ps : List Pending} {depth : Nat}

theorem finishAll_ends {level : Node → Nat}
    (h : ∀ p ∈ ps, (p.finish (level p.node)).Ends (R p) E) :
    (finishAll level ps).Ends (List.Forall₂ R ps) E := by
  induction ps with
  | nil => exact .pure .nil
  | cons p rest ih =>
    refine (ih fun q hq => h q (List.mem_cons_of_mem p hq)).bind fun ns hns => ?_
    exact (h p List.mem_cons_self).bind fun n hn => .pure (.cons hn hns)

/-- A run with a mark, at the offset of an item, if the run is to become a block: there are `many`
runs, and it has several items. -/
structure Marked (many : Prop) (run : List Pending) (marked : Option Mark × List Pending) :
    Prop where
  items : marked.2 = run
  isSome : marked.1.isSome ↔ many ∧ 1 < run.length
  offset : ∀ mark ∈ marked.1, ∃ p ∈ run, mark.offset = p.node.offset

theorem markRun_ends {many : Prop} (hmany : many) (run : List Pending) :
    (markRun run).Ends (Marked many run) E := by
  unfold markRun
  split
  · rename_i first second rest
    refine (Arranging.Ends.newMark _).bind fun mark hmark => .pure ⟨rfl, by simp [hmany], ?_⟩
    rintro _ ⟨⟩
    exact ⟨first, List.mem_cons_self, hmark⟩
  · rename_i hshort
    refine .pure ⟨rfl, ?_, nofun⟩
    rcases run with _ | ⟨p, _ | ⟨q, run⟩⟩
    · simp
    · simp
    · exact (hshort p q run rfl).elim

theorem markRuns_ends (runs : List (List Pending)) :
    (markRuns runs).Ends (List.Forall₂ (Marked (1 < runs.length)) runs) E := by
  unfold markRuns
  split
  · rename_i hone
    refine .pure
      (List.forall₂_map_right_iff.mpr (List.forall₂_same.mpr fun run _ => ⟨rfl, ?_, nofun⟩))
    simp [Nat.not_lt.mpr hone]
  · rename_i hmany
    rw [Nat.not_le] at hmany
    generalize (1 < runs.length) = many at hmany ⊢
    induction runs with
    | nil => exact .pure .nil
    | cons run runs ih =>
      rw [List.mapM_cons]
      refine (markRun_ends hmany run).bind fun marked hmarked => ?_
      exact ih.bind fun more hmore => .pure (.cons hmarked hmore)

/-- What a run is finished to: its items, as one block if there are several of them and `many`
runs. The block stands at the offset of an item. -/
def Piece (R : Pending → Node → Prop) (many : Prop) (run : List Pending) (piece : List Node) :
    Prop :=
  ∃ items, List.Forall₂ R run items ∧
    (¬ (many ∧ 1 < run.length) ∧ piece = items ∨ (many ∧ 1 < run.length) ∧
      ∃ mark, piece = [.block mark items] ∧ ∃ p ∈ run, mark.offset = p.node.offset)

theorem finishRuns_ends {many : Prop} {runs : List (List Pending)}
    {marked : List (Option Mark × List Pending)} (hmarked : List.Forall₂ (Marked many) runs marked)
    (h : ∀ run ∈ runs, ∀ p ∈ run, (p.finish (itemDepth depth p.node)).Ends (R p) E) :
    (finishRuns depth marked).Ends
      (fun ns => ∃ pieces, ns = pieces.flatten ∧ List.Forall₂ (Piece R many) runs pieces) E := by
  induction hmarked with
  | nil => exact .pure ⟨[], rfl, .nil⟩
  | @cons run m runs marked hm _ ih =>
    obtain ⟨mark, _⟩ := m
    obtain ⟨rfl, hmark, hoffset⟩ := hm
    refine (ih fun r hr => h r (List.mem_cons_of_mem _ hr)).bind ?_
    rintro _ ⟨pieces, rfl, hpieces⟩
    refine (finishAll_ends (h _ List.mem_cons_self)).bind fun items hitems => .pure ?_
    cases mark with
    | none =>
      exact ⟨items :: pieces, rfl, .cons ⟨items, hitems, .inl ⟨by simp [← hmark], rfl⟩⟩ hpieces⟩
    | some mark =>
      exact ⟨[.block mark items] :: pieces, rfl,
        .cons ⟨items, hitems, .inr ⟨hmark.mp rfl, mark, rfl, hoffset mark rfl⟩⟩ hpieces⟩

theorem finishProducts_ends (h : ∀ p ∈ ps, (p.finish (itemDepth depth p.node)).Ends (R p) E) :
    (finishProducts depth ps).Ends (fun ns => ∃ pieces, ns = pieces.flatten ∧
      List.Forall₂ (Piece R (1 < (productRuns ps).length)) (productRuns ps) pieces) E := by
  refine (markRuns_ends (productRuns ps)).bind fun marked hmarked => ?_
  refine finishRuns_ends hmarked fun run hrun p hp => h p ?_
  rw [← productRuns_flatten ps]
  exact List.mem_flatten.mpr ⟨run, hrun, hp⟩

theorem finishSegments_ends {segments : List (Segment Pending)}
    (h : ∀ segment ∈ segments, ∀ p ∈ segment.args, (p.finish (depth + 1)).Ends (R p) E) :
    (finishSegments depth segments).Ends (List.Forall₂ (Segment.Rel R) segments) E := by
  induction segments with
  | nil => exact .pure .nil
  | cons segment rest ih =>
    obtain ⟨hsegment, hrest⟩ := List.forall_mem_cons.mp h
    refine (ih hrest).bind fun ts hts => ?_
    cases segment with
    | member mark name generics => exact .pure (.cons (.member mark name generics) hts)
    | method mark name generics args =>
      exact (finishAll_ends hsegment).bind fun ns hns =>
        .pure (.cons (.method mark name generics hns) hts)
    | indexer mark args =>
      exact (finishAll_ends hsegment).bind fun ns hns => .pure (.cons (.indexer mark hns) hts)

/-! ## Trees -/

theorem Scope.checkDepth_ends (s : Scope) (depth : Nat) :
    (s.checkDepth depth).Ends (fun _ => depth ≤ s.limit) (· = s.tooDeep) := by
  unfold Scope.checkDepth
  split
  · exact .throw rfl
  · rename_i hdepth
    exact .pure (Nat.le_of_not_lt hdepth)

theorem Scope.checkSigns_ends (s : Scope) (depth : Nat) (signs : List (Mark × Operator)) :
    (s.checkSigns depth signs).Ends (fun _ => True)
      (fun e => e = s.tooDeep ∨ ∃ sign ∈ signs, sign.2 = .bar) := by
  unfold Scope.checkSigns
  simp only
  split
  · rename_i first last hfirst hlast
    have hbar : ∃ sign ∈ signs, sign.2 = .bar := by
      obtain ⟨hmem, hbar⟩ := List.mem_filter.mp (List.mem_of_getLast? hlast)
      exact ⟨last, hmem, by simpa using hbar⟩
    split
    · exact .throw (.inr hbar)
    · split
      · exact .throw (.inl rfl)
      · exact .throw (.inr hbar)
  · exact .pure trivial

/-- What finishing a node of a block at level `depth` may make of it. -/
def Pending.Finished (depth : Nat) (p : Pending) (t : Node) : Prop :=
  ∃ k k', (p.finish (itemDepth depth p.node)).run k = .ok (t, k')

/-- Operators stay what they are, and nothing else becomes an operator. -/
theorem Node.finish_operator? (s : Scope) (n : Node) (depth : Nat) :
    ((n.pend s).finish depth).Ends (fun t => t.operator? = n.operator?) (fun _ => True) := by
  refine (Arranging.Ends.of_runs _).mono ?_ fun _ _ => trivial
  rintro t ⟨k, k', h⟩
  cases n with
  | block mark items =>
    simp only [Node.pend] at h
    obtain ⟨_, _, _, _, ns, -, -, -, rfl⟩ := Scope.finishBlock_ok h
    rfl
  | cast mark typeMark target signs operand =>
    simp only [Node.pend] at h
    obtain ⟨-, -, n, -, rfl⟩ := Scope.pendCast_ok h
    rfl
  | route mark head segments =>
    simp only [Node.pend] at h
    obtain ⟨ts, k₁, -, h⟩ := Arranging.bind_ok h
    cases Arranging.pure_ok h
    rfl
  | constant mark v =>
    simp only [Node.pend] at h
    cases Arranging.pure_ok h
    rfl
  | operator mark op =>
    simp only [Node.pend] at h
    cases Arranging.pure_ok h
    rfl
  | unresolved mark raw =>
    simp only [Node.pend] at h
    cases Arranging.pure_ok h
    rfl

end Formula
