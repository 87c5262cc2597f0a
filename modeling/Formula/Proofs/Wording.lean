import Formula.Proofs.Prepared
import Formula.Proofs.Shape

/-!
# The words of an expression

Arranging moves items into new nodes, and it leaves none out. `Node.words` reads a tree as the
sequence of its words, in the order of the text; two things are read as the text has them:

* nodes that arranging makes, which are numbered from `k` on: a run of factors is no more than its
  items, and a call of `System.Math.Abs` is a bar, its items and a bar;
* casts: the type of a cast and the type in parentheses it was made of are the same word.

`Pending.Keeps`: finishing a node keeps its words. Each pass over the items of a block keeps the
words of the block (`Scope.casts_words`, `Scope.bars_words`, `finishProducts_words`), so arranging
keeps those of the tree (`Node.arrange_words`).
-/

namespace Formula

/-- A word of an expression. Nodes and segments come with their marks; blocks in parentheses have a
word at their start and one at their end. -/
inductive Word where
  | constant (mark : Mark) (value : Value)
  | operator (mark : Mark) (op : Operator)
  | bar
  | cast (offset : Nat) (target : TypeName)
  | unresolved (mark : Mark) (raw : String)
  | route (mark : Mark) (head : RouteHead)
  | member (mark : Mark) (name : String) (generics : List TypeName)
  | method (mark : Mark) (name : String) (generics : List TypeName)
  | indexer (mark : Mark)
  | opening (mark : Mark)
  | closing (mark : Mark)

namespace Word

/-- The word of an operator; bars are all alike. -/
def ofOperator (mark : Mark) (op : Operator) : Word := if op = .bar then .bar else .operator mark op

/-- The word that a segment starts with. -/
def ofSegment {α : Type} : Segment α → Word
  | .member mark name generics => .member mark name generics
  | .method mark name generics _ => .method mark name generics
  | .indexer mark _ => .indexer mark

end Word

/-- Whether a route is a call of `System.Math.Abs` on one argument. -/
def isAbs : RouteHead → List (Segment Node) → Bool
  | .type, [.member _ "System" [], .member _ "Math" [], .method _ "Abs" [] [_]] => true
  | _, _ => false

namespace Node

section

variable (k : Nat) (cast? : Node → Option TypeName)

mutual

/-- The words of a tree. Nodes from number `k` on are no part of the text, and `cast?` finds the
types in parentheses among the items of blocks. -/
def words : Node → List Word
  | .constant mark v => [.constant mark v]
  | .operator mark op => [.ofOperator mark op]
  | .unresolved mark raw => [.unresolved mark raw]
  | .cast _ typeMark target signs operand =>
    .cast typeMark.offset target ::
      (signs.map (fun sign => .ofOperator sign.1 sign.2) ++ words operand)
  | .route mark head segments =>
    if k ≤ mark.slot ∧ isAbs head segments then .bar :: (wordsOfArgs segments ++ [.bar])
    else .route mark head :: wordsOfSegments segments
  | .block mark items =>
    if k ≤ mark.slot then wordsOfItems items
    else .opening mark :: (wordsOfItems items ++ [.closing mark])

/-- The words of the items of a block. -/
def wordsOfItems : List Node → List Word
  | [] => []
  | n :: ns =>
    (match cast? n with
      | some target => [.cast n.offset target]
      | none => words n) ++ wordsOfItems ns

/-- The words of arguments. -/
def wordsAll : List Node → List Word
  | [] => []
  | n :: ns => words n ++ wordsAll ns

/-- The words of segments. -/
def wordsOfSegments : List (Segment Node) → List Word
  | [] => []
  | .member mark name generics :: rest => .member mark name generics :: wordsOfSegments rest
  | .method mark name generics args :: rest =>
    .method mark name generics :: (wordsAll args ++ wordsOfSegments rest)
  | .indexer mark args :: rest => .indexer mark :: (wordsAll args ++ wordsOfSegments rest)

/-- The words of the arguments of segments. -/
def wordsOfArgs : List (Segment Node) → List Word
  | [] => []
  | .member .. :: rest => wordsOfArgs rest
  | .method _ _ _ args :: rest | .indexer _ args :: rest => wordsAll args ++ wordsOfArgs rest

end

/-- The words of an item of a block. -/
def itemWords (n : Node) : List Word :=
  match cast? n with
  | some target => [.cast n.offset target]
  | none => words k cast? n

variable {k cast?}

theorem itemWords_of_none {n : Node} (h : cast? n = none) :
    n.itemWords k cast? = n.words k cast? := by
  rw [itemWords, h]

theorem itemWords_of_some {n : Node} {target : TypeName} (h : cast? n = some target) :
    n.itemWords k cast? = [.cast n.offset target] := by
  rw [itemWords, h]

@[simp]
theorem itemWords_none : itemWords k (fun _ => none) = words k (fun _ => none) := rfl

theorem wordsOfItems_eq (ns : List Node) :
    wordsOfItems k cast? ns = ns.flatMap (itemWords k cast?) := by
  induction ns with
  | nil => simp [wordsOfItems]
  | cons n ns ih => simp [wordsOfItems, itemWords, ih]

theorem wordsAll_eq (ns : List Node) : wordsAll k cast? ns = ns.flatMap (words k cast?) := by
  induction ns with
  | nil => simp [wordsAll]
  | cons n ns ih => simp [wordsAll, ih]

theorem wordsOfSegments_cons (segment : Segment Node) (rest : List (Segment Node)) :
    wordsOfSegments k cast? (segment :: rest) = Word.ofSegment segment ::
      (segment.args.flatMap (words k cast?) ++ wordsOfSegments k cast? rest) := by
  cases segment <;> simp [wordsOfSegments, wordsAll_eq, Word.ofSegment, Segment.args]

/-- A block that arranging makes has the words of its items. -/
theorem words_block_of_le {mark : Mark} (h : k ≤ mark.slot) (items : List Node) :
    (Node.block mark items).words k cast? = items.flatMap (itemWords k cast?) := by
  rw [words, if_pos h, wordsOfItems_eq]

theorem words_block_of_lt {mark : Mark} (h : mark.slot < k) (items : List Node) :
    (Node.block mark items).words k cast? =
      .opening mark :: (items.flatMap (itemWords k cast?) ++ [.closing mark]) := by
  rw [words, if_neg (Nat.not_le.mpr h), wordsOfItems_eq]

theorem words_route_of_lt {mark : Mark} (h : mark.slot < k) (head : RouteHead)
    (segments : List (Segment Node)) :
    (Node.route mark head segments).words k cast? =
      .route mark head :: wordsOfSegments k cast? segments := by
  rw [words, if_neg fun hnew => Nat.not_le.mpr h hnew.1]

/-- A call that arranging makes for bars has the words of its items between bars. -/
theorem words_absNode {n : Nat} (h : k ≤ n) (offset : Nat) (items : List Node) :
    (absNode n offset items).words k cast? =
      .bar :: (items.flatMap (itemWords k cast?) ++ [.bar]) := by
  have hroute : k ≤ n + 4 := Nat.le_add_right_of_le h
  have hblock : k ≤ (⟨n, offset⟩ : Mark).slot := h
  rw [absNode, words, if_pos ⟨hroute, rfl⟩]
  simp only [wordsOfArgs, wordsAll, words_block_of_le hblock, List.append_nil]

end

end Node

/-! ## Counting from a number on -/

namespace Arranging

variable {α β : Type} {k : Nat} {P P' : α → Prop} {Q : β → Prop} {E : BuildError → Prop}

/-- From a count of `k` or more, the outcome is a result with `P`, and such a count again, or an
error with `E`. -/
def EndsFrom (k : Nat) (x : Arranging α) (P : α → Prop) (E : BuildError → Prop) : Prop :=
  ∀ n, k ≤ n → match x.run n with
    | .ok (a, n') => k ≤ n' ∧ P a
    | .error e => E e

namespace EndsFrom

theorem pure {a : α} (h : P a) : EndsFrom k (pure a : Arranging α) P E := fun _ hn => ⟨hn, h⟩

theorem throw {e : BuildError} (h : E e) : EndsFrom k (throw e : Arranging α) P E := fun _ _ => h

theorem newMark (offset : Nat) :
    EndsFrom k (newMark offset) (fun mark => k ≤ mark.slot ∧ mark.offset = offset) E :=
  fun _ hn => ⟨Nat.le_succ_of_le hn, hn, rfl⟩

theorem bind {x : Arranging α} {f : α → Arranging β} (h : EndsFrom k x P E)
    (hf : ∀ a, P a → EndsFrom k (f a) Q E) : EndsFrom k (x >>= f) Q E := by
  intro n hn
  have hx := h n hn
  rw [StateT.run_bind]
  rcases hrun : x.run n with e | ⟨a, n'⟩
  · rw [hrun] at hx
    exact hx
  · rw [hrun] at hx
    exact hf a hx.2 n' hx.1

theorem mono {x : Arranging α} (h : EndsFrom k x P E) (hP : ∀ a, P a → P' a) :
    EndsFrom k x P' E := by
  intro n hn
  have hx := h n hn
  rcases hrun : x.run n with e | ⟨a, n'⟩
  · rw [hrun] at hx
    exact hx
  · rw [hrun] at hx
    exact ⟨hx.1, hP a hx.2⟩

end EndsFrom

end Arranging

open Arranging

/-- The errors of arranging: nesting is too deep, or the text has no shape. -/
def Scope.Refuses (s : Scope) (e : BuildError) : Prop := e = s.tooDeep ∨ e.isParse = true

/-- Finishing the node keeps its words. -/
def Pending.Keeps (k : Nat) (s : Scope) (p : Pending) : Prop :=
  ∀ depth, EndsFrom k (p.finish depth)
    (fun t => t.words k (fun _ => none) = p.node.words k s.castTarget?) s.Refuses

/-- The node is no type in parentheses, and finishing it keeps its words. -/
structure Pending.KeepsItem (k : Nat) (s : Scope) (p : Pending) : Prop where
  keeps : p.Keeps k s
  target : s.castTarget? p.node = none

/-- The words of items that wait. -/
def Scope.text (s : Scope) (k : Nat) (ps : List Pending) : List Word :=
  ps.flatMap fun p => p.node.itemWords k s.castTarget?

section

variable {k depth : Nat} {s : Scope} {ps : List Pending}

@[simp]
theorem text_nil : s.text k [] = [] := rfl

@[simp]
theorem text_cons (p : Pending) :
    s.text k (p :: ps) = p.node.itemWords k s.castTarget? ++ s.text k ps := rfl

@[simp]
theorem text_append (qs : List Pending) : s.text k (ps ++ qs) = s.text k ps ++ s.text k qs := by
  simp [Scope.text]

theorem Pending.KeepsItem.itemWords {p : Pending} (h : p.KeepsItem k s) :
    p.node.itemWords k s.castTarget? = p.node.words k s.castTarget? :=
  Node.itemWords_of_none h.target

/-! ## Casts -/

theorem Scope.checkDepth_from (s : Scope) (depth : Nat) :
    EndsFrom k (s.checkDepth depth) (fun _ => True) s.Refuses := by
  unfold Scope.checkDepth
  split
  · exact .throw (.inl rfl)
  · exact .pure trivial

theorem Scope.checkSigns_from (s : Scope) (depth : Nat) (signs : List (Mark × Operator)) :
    EndsFrom k (s.checkSigns depth signs) (fun _ => True) s.Refuses := by
  unfold Scope.checkSigns
  simp only
  split
  · split
    · exact .throw (.inr rfl)
    · split
      · exact .throw (.inl rfl)
      · exact .throw (.inr rfl)
  · exact .pure trivial

theorem Scope.pendCast_keeps {operand : Pending} (h : operand.Keeps k s) (mark typeMark : Mark)
    (target : TypeName) (signs : List (Mark × Operator)) :
    (s.pendCast mark typeMark target signs operand).Keeps k s := by
  intro depth
  refine (s.checkDepth_from depth).bind fun _ _ =>
    (s.checkSigns_from depth signs).bind fun _ _ => ?_
  refine (h _).bind fun t ht => .pure ?_
  simp only [Scope.pendCast, Node.words, ht]

private theorem text_signs {signs : List (Mark × Operator)}
    (h : ps.map Pending.node = signs.map fun sign => .operator sign.1 sign.2) :
    s.text k ps = signs.map fun sign => .ofOperator sign.1 sign.2 := by
  induction ps generalizing signs with
  | nil =>
    cases List.map_eq_nil_iff.mp h.symm
    rfl
  | cons p ps ih =>
    rcases signs with _ | ⟨sign, signs⟩
    · cases h
    · obtain ⟨hp, hps⟩ := List.cons.inj h
      rw [text_cons, hp, ih hps]
      rfl

/-- A cast has the words of the type in parentheses, the operators and the operand it is made of. -/
theorem text_pendCast {p operand : Pending} {front after : List Pending}
    {signs : List (Mark × Operator)} {target : TypeName}
    (htarget : s.castTarget? p.node = some target)
    (hsigns : front.map Pending.node = signs.map fun sign => .operator sign.1 sign.2)
    (hoperand : operand.KeepsItem k s) {typeMark : Mark} (htype : typeMark.offset = p.node.offset)
    (mark : Mark) :
    s.text k (s.pendCast mark typeMark target signs operand :: after) =
      s.text k (p :: (front ++ operand :: after)) := by
  have hcast : (s.pendCast mark typeMark target signs operand).node.itemWords k s.castTarget? =
      .cast p.node.offset target :: (s.text k front ++ operand.node.words k s.castTarget?) := by
    rw [text_signs hsigns, ← htype]
    simp [Scope.pendCast, Node.itemWords, Scope.castTarget?, Node.words]
  rw [text_cons, hcast, text_cons, Node.itemWords_of_some htarget, text_append, text_cons,
    hoperand.itemWords]
  simp

/-- Forming casts keeps the words of the items. -/
theorem Scope.casts_words (hps : ∀ p ∈ ps, p.Keeps k s) :
    EndsFrom k (s.casts ps) (fun qs => (∀ q ∈ qs, q.KeepsItem k s) ∧ s.text k qs = s.text k ps)
      s.Refuses := by
  induction ps with
  | nil => exact .pure ⟨by simp, rfl⟩
  | cons p rest ih =>
    refine (ih fun q hq => hps q (List.mem_cons_of_mem p hq)).bind ?_
    rintro rest' ⟨hrest', htext⟩
    rw [text_cons, ← htext, ← text_cons]
    cases htarget : s.castTarget? p.node with
    | none =>
      exact .pure ⟨List.forall_mem_cons.mpr ⟨⟨hps p List.mem_cons_self, htarget⟩, hrest'⟩, rfl⟩
    | some target =>
      obtain ⟨front, hfront, hsigns⟩ := leadingOperators_append rest'
      rcases hl : leadingOperators rest' with ⟨signs, _ | ⟨operand, after⟩⟩
      · exact .throw (.inr rfl)
      · rw [hl] at hfront hsigns
        subst hfront
        obtain ⟨-, hafter⟩ := List.forall_mem_append.mp hrest'
        obtain ⟨hoperand, hafter⟩ := List.forall_mem_cons.mp hafter
        refine (EndsFrom.newMark _).bind fun typeMark htype =>
          (EndsFrom.newMark _).bind fun mark _ => .pure ⟨?_, ?_⟩
        · have hcast := Scope.pendCast_keeps hoperand.keeps mark typeMark target signs
          exact List.forall_mem_cons.mpr ⟨⟨hcast, rfl⟩, hafter⟩
        · exact text_pendCast htarget hsigns hoperand htype.2 mark

/-! ## Products -/

/-- The words of finished items. -/
def finishedText (k : Nat) (ns : List Node) : List Word := ns.flatMap (Node.words k fun _ => none)

theorem finishAll_words {level : Node → Nat} (hps : ∀ p ∈ ps, p.Keeps k s) :
    EndsFrom k (finishAll level ps)
      (fun ns => finishedText k ns = ps.flatMap fun p => p.node.words k s.castTarget?)
        s.Refuses := by
  induction ps with
  | nil => exact .pure rfl
  | cons p rest ih =>
    refine (ih fun q hq => hps q (List.mem_cons_of_mem p hq)).bind fun ns hns => ?_
    refine (hps p List.mem_cons_self _).bind fun n hn => .pure ?_
    simp only [finishedText, List.flatMap_cons, hn] at hns ⊢
    rw [hns]

theorem finishItems_words (hps : ∀ p ∈ ps, p.KeepsItem k s) :
    EndsFrom k (finishItems depth ps) (fun ns => finishedText k ns = s.text k ps) s.Refuses := by
  have htext : s.text k ps = ps.flatMap fun p => p.node.words k s.castTarget? :=
    List.flatMap_congr fun p hp => (hps p hp).itemWords
  rw [htext]
  exact finishAll_words fun p hp => (hps p hp).keeps

private theorem markRun_from (run : List Pending) :
    EndsFrom k (markRun run) (fun marked => marked.2 = run ∧ ∀ mark ∈ marked.1, k ≤ mark.slot)
      s.Refuses := by
  unfold markRun
  split
  · exact (EndsFrom.newMark _).bind fun mark hmark => .pure ⟨rfl, by simpa using hmark.1⟩
  · exact .pure ⟨rfl, by simp⟩

theorem markRuns_from (runs : List (List Pending)) :
    EndsFrom k (markRuns runs) (fun marked => marked.map Prod.snd = runs ∧
      ∀ run ∈ marked, ∀ mark ∈ run.1, k ≤ mark.slot) s.Refuses := by
  unfold markRuns
  split
  · exact .pure ⟨by simp [Function.comp_def], by simp⟩
  · rename_i hmany
    clear hmany
    induction runs with
    | nil => exact .pure ⟨rfl, by simp⟩
    | cons run runs ih =>
      rw [List.mapM_cons]
      refine (markRun_from run).bind fun first hfirst => ih.bind fun more hmore => .pure ⟨?_, ?_⟩
      · rw [List.map_cons, hfirst.1, hmore.1]
      · exact List.forall_mem_cons.mpr ⟨hfirst.2, hmore.2⟩

/-- Blocks of runs have the words of the runs. -/
theorem finishRuns_words {marked : List (Option Mark × List Pending)}
    (hmarks : ∀ run ∈ marked, ∀ mark ∈ run.1, k ≤ mark.slot)
    (hps : ∀ run ∈ marked, ∀ p ∈ run.2, p.KeepsItem k s) :
    EndsFrom k (finishRuns depth marked)
      (fun ns => finishedText k ns = s.text k (marked.map Prod.snd).flatten) s.Refuses := by
  induction marked with
  | nil => exact .pure rfl
  | cons run marked ih =>
    obtain ⟨mark, run⟩ := run
    obtain ⟨hmark, hmarks⟩ := List.forall_mem_cons.mp hmarks
    obtain ⟨hrun, hps⟩ := List.forall_mem_cons.mp hps
    refine (ih hmarks hps).bind fun rest hrest =>
      (finishItems_words hrun).bind fun items hitems => ?_
    refine .pure ?_
    rw [List.map_cons, List.flatten_cons, text_append, ← hrest, ← hitems]
    cases mark with
    | none => simp [finishedText]
    | some mark =>
      simp [finishedText, Node.words_block_of_le (hmark mark rfl)]

theorem finishProducts_words (hps : ∀ p ∈ ps, p.KeepsItem k s) :
    EndsFrom k (finishProducts depth ps) (fun ns => finishedText k ns = s.text k ps) s.Refuses := by
  refine (markRuns_from (productRuns ps)).bind ?_
  rintro marked ⟨hruns, hmarks⟩
  have hflatten : (marked.map Prod.snd).flatten = ps := by rw [hruns, productRuns_flatten]
  refine hflatten ▸ finishRuns_words hmarks fun run hrun p hp => hps p ?_
  rw [← hflatten]
  exact List.mem_flatten.mpr ⟨run.2, List.mem_map_of_mem hrun, hp⟩

/-! ## Bars -/

theorem absPending_keeps {inner : List Pending} (hinner : ∀ p ∈ inner, p.KeepsItem k s) {n : Nat}
    (hn : k ≤ n) (offset : Nat) : (absPending n offset inner).KeepsItem k s := by
  refine ⟨fun depth => (finishProducts_words hinner).bind fun items hitems => .pure ?_, rfl⟩
  rw [Node.words_absNode hn, Node.itemWords_none, ← finishedText, hitems, absPending,
    Node.words_absNode hn, List.flatMap_map]
  rfl

theorem text_absPending {inner : List Pending} {n : Nat} (hn : k ≤ n) (offset : Nat) :
    s.text k [absPending n offset inner] = .bar :: (s.text k inner ++ [.bar]) := by
  have htarget : s.castTarget? (absPending n offset inner).node = none := rfl
  rw [text_cons, Node.itemWords_of_none htarget, absPending, Node.words_absNode hn,
    List.flatMap_map]
  simp [Scope.text]

theorem itemWords_bar {n : Node} (h : n.operator? = some .bar) :
    n.itemWords k s.castTarget? = [.bar] := by
  cases n <;> cases h
  rfl

/-- The words before the innermost open span. -/
def spansText (k : Nat) (s : Scope) : List (Nat × List Pending) → List Word
  | [] => []
  | (_, outer) :: spans => spansText k s spans ++ (s.text k outer.reverse ++ [.bar])

/-- Replacing spans keeps the words of the items. -/
theorem Scope.bars_words {spans : List (Nat × List Pending)} {before rest : List Pending}
    (hps : ∀ p ∈ barItems spans before rest, p.KeepsItem k s) (depth : Nat) :
    EndsFrom k (s.bars depth spans before rest)
      (fun qs => (∀ q ∈ qs, q.KeepsItem k s) ∧
        s.text k qs = spansText k s spans ++ (s.text k before.reverse ++ s.text k rest))
          s.Refuses := by
  induction rest generalizing spans before with
  | nil =>
    cases spans with
    | nil =>
      exact .pure ⟨fun q hq => hps q (by simpa [barItems] using hq), by simp [spansText,
        Scope.text]⟩
    | cons span spans => exact .throw (.inr rfl)
  | cons p rest ih =>
    have hperm := barItems_cons_perm spans before rest p
    have hitems : ∀ q ∈ barItems spans before rest, q.KeepsItem k s := fun q hq =>
      hps q (hperm.mem_iff.mpr (List.mem_cons_of_mem p hq))
    unfold Scope.bars
    by_cases hbar : p.node.operator? = some .bar
    · rw [if_pos hbar]
      have hword : p.node.itemWords k s.castTarget? = [.bar] := itemWords_bar hbar
      split
      · split
        · exact .throw (.inl rfl)
        · have hopen : spansText k s spans ++ (s.text k before.reverse ++ s.text k (p :: rest)) =
              spansText k s ((p.node.offset, before) :: spans) ++
                (s.text k ([] : List Pending).reverse ++ s.text k rest) := by
            simp [spansText, hword]
          rw [hopen]
          exact ih (by simpa [barItems] using hitems)
      · cases spans with
        | nil => exact .throw (.inr rfl)
        | cons span spans =>
          obtain ⟨offset, outer⟩ := span
          intro n hn
          have hclose : spansText k s ((offset, outer) :: spans) ++
              (s.text k before.reverse ++ s.text k (p :: rest)) = spansText k s spans ++
                (s.text k (absPending n offset before.reverse :: outer).reverse ++
                  s.text k rest) := by
            rw [List.reverse_cons, text_append, text_absPending hn]
            simp [spansText, hword]
          rw [StateT.run_bind, absCall_run, hclose]
          refine ih (fun q hq => ?_) (n + 5) (Nat.le_add_right_of_le hn)
          rcases List.mem_cons.mp hq with rfl | hq
          · refine absPending_keeps (fun q hq => hitems q ?_) hn offset
            exact List.mem_append_left _ (List.mem_reverse.mp hq)
          · refine hitems q (List.mem_append_right _ ?_)
            simpa [barItems] using hq
    · rw [if_neg hbar]
      have hpass : s.text k before.reverse ++ s.text k (p :: rest) =
          s.text k (p :: before).reverse ++ s.text k rest := by
        simp
      rw [hpass]
      exact ih fun q hq => hps q (hperm.mem_iff.mpr hq)

/-! ## Trees -/

theorem Scope.finishBlock_words (hps : ∀ p ∈ ps, p.Keeps k s) (depth : Nat) (mark : Mark) :
    EndsFrom k (s.finishBlock depth mark ps)
      (fun t => ∃ ns, t = .block mark ns ∧ finishedText k ns = s.text k ps) s.Refuses := by
  refine (s.checkDepth_from depth).bind fun _ _ => (Scope.casts_words hps).bind ?_
  rintro casts ⟨hcasts, hcastsText⟩
  refine (Scope.bars_words (by simpa [barItems] using hcasts) depth).bind ?_
  rintro bars ⟨hbars, hbarsText⟩
  refine (finishProducts_words hbars).bind fun ns hns => .pure ⟨ns, rfl, ?_⟩
  rw [hns, hbarsText, ← hcastsText]
  rfl

theorem finishSegments_words {segments : List (Segment Pending)}
    (hps : ∀ segment ∈ segments, ∀ p ∈ segment.args, p.Keeps k s) (depth : Nat) :
    EndsFrom k (finishSegments depth segments)
      (fun ts => Node.wordsOfSegments k (fun _ => none) ts =
        Node.wordsOfSegments k s.castTarget? (segments.map (Segment.map Pending.node)))
          s.Refuses := by
  induction segments with
  | nil => exact .pure rfl
  | cons segment rest ih =>
    refine (ih fun s hs => hps s (List.mem_cons_of_mem _ hs)).bind fun ts hts => ?_
    have hargs := hps segment List.mem_cons_self
    cases segment with
    | member mark name generics =>
      refine .pure ?_
      rw [List.map_cons, Node.wordsOfSegments_cons, Node.wordsOfSegments_cons, hts]
      rfl
    | method mark name generics args =>
      refine (finishAll_words hargs).bind fun ns hns => .pure ?_
      rw [List.map_cons, Node.wordsOfSegments_cons, Node.wordsOfSegments_cons, hts,
        Segment.args_map, List.flatMap_map, Segment.args, ← finishedText, hns]
      rfl
    | indexer mark args =>
      refine (finishAll_words hargs).bind fun ns hns => .pure ?_
      rw [List.map_cons, Node.wordsOfSegments_cons, Node.wordsOfSegments_cons, hts,
        Segment.args_map, List.flatMap_map, Segment.args, ← finishedText, hns]
      rfl

namespace Node

/-- **Arranging keeps the words** of a tree whose numbers are below `k`. -/
theorem pend_keeps (s : Scope) {k : Nat} (n : Node) (hn : ∀ i ∈ n.slots, i < k) :
    (n.pend s).Keeps k s := by
  induction n using Node.induct with
  | block mark items ih =>
    intro depth
    have hmark : mark.slot < k := hn _ List.mem_cons_self
    have hitems : ∀ p ∈ items.map (pend s), p.Keeps k s := by
      refine List.forall_mem_map.mpr fun n hmem => ih n hmem fun i hi => hn i ?_
      exact List.mem_cons_of_mem _ ((slots_sublist hmem).subset hi)
    simp only [pend, pendAll_eq_map]
    refine (Scope.finishBlock_words hitems depth mark).mono ?_
    rintro _ ⟨ns, rfl, hns⟩
    rw [words_block_of_lt hmark, words_block_of_lt hmark, itemWords_none, ← finishedText, hns]
    simp [Scope.text, List.flatMap_map]
  | cast mark typeMark target signs operand ih =>
    simp only [pend]
    exact Scope.pendCast_keeps (ih fun i hi => hn i (by simp [slots, hi])) mark
      typeMark target signs
  | route mark head segments ih =>
    intro depth
    have hmark : mark.slot < k := hn _ List.mem_cons_self
    have hsegments : ∀ segment ∈ segments.map (Segment.map (pend s)), ∀ p ∈ segment.args,
        p.Keeps k s := by
      refine forall_pend_args fun segment hsegment n hmem =>
        ih segment hsegment n hmem fun i hi => ?_
      exact hn i (List.mem_cons_of_mem _ ((slots_sublist_of_arg hsegment hmem).subset hi))
    simp only [pend, pendSegments_eq_map]
    refine (finishSegments_words hsegments depth).bind fun ts hts => .pure ?_
    rw [words_route_of_lt hmark, words_route_of_lt hmark, hts, segments_pend]
  | constant | operator | unresolved =>
    simp only [pend]
    exact fun depth => .pure rfl

theorem arrange_words {root : Node} (hroot : root.Numbered k) (s : Scope) :
    EndsFrom k (root.arrange s)
      (fun t => t.words k (fun _ => none) = root.words k s.castTarget?) s.Refuses := by
  have hkeeps := pend_keeps s root hroot.2 0
  rwa [pend_node] at hkeeps

end Node

end

end Formula
