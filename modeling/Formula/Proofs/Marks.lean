import Formula.Node.Render
import Formula.Proofs.Transparency

/-!
# Trees without their marks

`Node.unmarked` is a tree with its marks taken off. Its text is the same (`Node.render_unmarked`).
What a tree is bound to does not depend on the marks either (`Node.meaning_unmarked`): they tell
where bindings are kept and where a fault is reported, and nothing else. So errors are the same but
for the place (`Node.meansUnmarked`).

`n.Agrees strict n'` if the two trees are the same up to marks and, in the `strict` case,
altogether.
-/

namespace Formula

/-- A segment with its mark taken off, and other arguments. -/
def Segment.unmarked {α β : Type} (f : α → β) : Segment α → Segment β
  | .member _ name generics => .member default name generics
  | .method _ name generics args => .method default name generics (args.map f)
  | .indexer _ args => .indexer default (args.map f)

namespace Node

mutual

/-- A tree with all marks taken off. -/
def unmarked : Node → Node
  | .constant _ v => .constant default v
  | .operator _ op => .operator default op
  | .cast _ _ target signs operand =>
    .cast default default target (signs.map fun sign => (default, sign.2)) (unmarked operand)
  | .route _ head segments => .route default head (unmarkedSegments segments)
  | .block _ items => .block default (unmarkedAll items)
  | .unresolved _ raw => .unresolved default raw

/-- `unmarked` on each node of a list. -/
def unmarkedAll : List Node → List Node
  | [] => []
  | n :: ns => unmarked n :: unmarkedAll ns

/-- `unmarked` on each segment and its arguments. -/
def unmarkedSegments : List (Segment Node) → List (Segment Node)
  | [] => []
  | .member _ name generics :: rest => .member default name generics :: unmarkedSegments rest
  | .method _ name generics args :: rest =>
    .method default name generics (unmarkedAll args) :: unmarkedSegments rest
  | .indexer _ args :: rest => .indexer default (unmarkedAll args) :: unmarkedSegments rest

end

theorem unmarkedAll_eq_map (ns : List Node) : unmarkedAll ns = ns.map unmarked := by
  induction ns with
  | nil => rfl
  | cons n ns ih => simp [unmarkedAll, ih]

theorem unmarkedSegments_eq_map (segments : List (Segment Node)) :
    unmarkedSegments segments = segments.map (Segment.unmarked unmarked) := by
  induction segments with
  | nil => rfl
  | cons s rest ih =>
    cases s <;> simp [unmarkedSegments, Segment.unmarked, unmarkedAll_eq_map, ih]

@[simp] theorem unmarked_operator? (n : Node) : n.unmarked.operator? = n.operator? := by
  cases n <;> simp [unmarked, operator?]

@[simp] theorem unmarked_isBlock (n : Node) : n.unmarked.isBlock = n.isBlock := by
  cases n <;> simp [unmarked, isBlock]

/-! ## Types in parentheses -/

theorem memberPath_unmarked (f : Node → Node) (segments : List (Segment Node)) :
    memberPath (segments.map (Segment.unmarked f)) = memberPath segments := by
  induction segments with
  | nil => rfl
  | cons s rest ih => cases s <;> simp [memberPath, Segment.unmarked, ih]

/-- Whether a block is a cast does not depend on marks. -/
theorem castTarget?_unmarked (s : Scope) (n : Node) :
    s.castTarget? n.unmarked = s.castTarget? n := by
  have hroute : ∀ mark mark' segments, s.castTarget? (.block mark [.route mark' .scope segments]) =
      s.castTarget?
      (.block default [.route default .scope (segments.map (Segment.unmarked unmarked))]) := by
    intro mark mark' segments
    simp only [Scope.castTarget?, memberPath_unmarked]
  cases n with
  | block mark items =>
    rcases items with _ | ⟨first, _ | ⟨second, rest⟩⟩
    · rfl
    · cases first with
      | route mark' head segments =>
        cases head with
        | scope =>
          rw [hroute mark mark' segments, ← unmarkedSegments_eq_map]
          simp [unmarked, unmarkedAll]
        | type => simp [unmarked, unmarkedAll, Scope.castTarget?]
      | _ => simp [unmarked, unmarkedAll, Scope.castTarget?]
    · simp [unmarked, unmarkedAll, Scope.castTarget?]
  | _ => simp [unmarked, Scope.castTarget?]

/-! ## Texts -/

theorem renderItems_eq_map (ns : List Node) :
    renderItems ns = ns.map fun n => n.parenthesize n.render := by
  induction ns with
  | nil => rfl
  | cons n ns ih => simp [renderItems, ih]

theorem renderArgs_eq_map (ns : List Node) : renderArgs ns = ns.map render := by
  induction ns with
  | nil => rfl
  | cons n ns ih => simp [renderArgs, ih]

/-- The text of a list of arguments. -/
def argsText (args : List Node) : String := ", ".intercalate (args.map render)

/-- The text of a segment, without the dot before it. -/
def segmentText : Segment Node → String
  | .member _ name generics => name ++ TypeName.argumentText generics
  | .method _ name generics args =>
    name ++ TypeName.argumentText generics ++ "(" ++ argsText args ++ ")"
  | .indexer _ args => "[" ++ argsText args ++ "]"

theorem renderSegments_eq_map (segments : List (Segment Node)) :
    renderSegments segments = segments.map fun s => (s.isIndexer, segmentText s) := by
  induction segments with
  | nil => rfl
  | cons s rest ih =>
    cases s <;> simp [renderSegments, segmentText, argsText, renderArgs_eq_map, ih,
      Segment.isIndexer]

theorem renderSegment_eq (s : Segment Node) : renderSegment s = segmentText s := by
  rw [renderSegment, renderSegments_eq_map]
  simp [joinSegments]

/-- The text of an item of a block. -/
def itemText (n : Node) : String := n.parenthesize n.render

theorem render_block (mark : Mark) (items : List Node) :
    (Node.block mark items).render = " ".intercalate (items.map itemText) := by
  rw [render, renderItems_eq_map]
  rfl

theorem render_route (mark : Mark) (head : RouteHead) (segments : List (Segment Node)) :
    (Node.route mark head segments).render =
      joinSegments (segments.map fun s => (s.isIndexer, segmentText s)) := by
  rw [render, renderSegments_eq_map]

section

variable {f : Node → Node}

theorem itemText_congr {n : Node} (h : (f n).render = n.render)
    (hblock : (f n).isBlock = n.isBlock) :
    itemText (f n) = itemText n := by
  simp only [itemText, parenthesize, h, hblock]

theorem render_block_map {mark mark' : Mark} {items : List Node}
    (h : ∀ n ∈ items, itemText (f n) = itemText n) :
    (Node.block mark' (items.map f)).render = (Node.block mark items).render := by
  rw [render_block, render_block, List.map_map]
  exact congrArg _ (List.map_congr_left h)

theorem segmentText_map {s : Segment Node} (h : ∀ n ∈ s.args, (f n).render = n.render) :
    segmentText (s.unmarked f) = segmentText s := by
  have hargs : ∀ args : List Node, (∀ n ∈ args, (f n).render = n.render) →
      argsText (args.map f) = argsText args :=
    fun args h => by
      rw [argsText, argsText, List.map_map]
      exact congrArg _ (List.map_congr_left h)
  cases s with
  | member => rfl
  | method mark name generics args => rw [Segment.unmarked, segmentText, segmentText, hargs args h]
  | indexer mark args => rw [Segment.unmarked, segmentText, segmentText, hargs args h]

theorem render_route_map {mark mark' : Mark} {head head' : RouteHead}
    {segments : List (Segment Node)} (h : ∀ s ∈ segments, ∀ n ∈ s.args, (f n).render = n.render) :
    (Node.route mark' head' (segments.map (Segment.unmarked f))).render =
      (Node.route mark head segments).render := by
  have hsegment : ∀ s ∈ segments, ((s.unmarked f).isIndexer, segmentText (s.unmarked f)) =
      (s.isIndexer, segmentText s) := fun s hs => by
    rw [segmentText_map (h s hs)]
    cases s <;> rfl
  rw [render_route, render_route, List.map_map]
  exact congrArg _ (List.map_congr_left hsegment)

theorem render_cast_map {mark typeMark mark' typeMark' : Mark} {target : TypeName}
    {signs : List (Mark × Operator)} {operand : Node}
    (h : itemText (f operand) = itemText operand) :
    (Node.cast mark' typeMark' target (signs.map fun sign => (default, sign.2))
      (f operand)).render =
      (Node.cast mark typeMark target signs operand).render := by
  rw [itemText, itemText] at h
  rw [render, render, h, List.map_map]
  rfl

end

/-- Marks are not shown. -/
theorem render_unmarked (n : Node) : n.unmarked.render = n.render := by
  induction n using Node.induct with
  | constant | operator | unresolved => rfl
  | cast mark typeMark target signs operand ih =>
    rw [unmarked]
    exact render_cast_map (itemText_congr ih operand.unmarked_isBlock)
  | route mark head segments ih =>
    rw [unmarked, unmarkedSegments_eq_map]
    exact render_route_map ih
  | block mark items ih =>
    rw [unmarked, unmarkedAll_eq_map]
    exact render_block_map fun n hn => itemText_congr (ih n hn) n.unmarked_isBlock

/-! ## Bindings -/

/-- The tree without its marks is bound to the same. -/
def BindsUnmarked (env : BindEnv) (n : Node) : Prop :=
  (n.unmarked.meaning env).toOption = (n.meaning env).toOption

end Node

/-- The error, wherever it is reported. -/
def BuildError.unplaced : BuildError → BuildError
  | .parse _ fault => .parse 0 fault
  | e => e

open BuildError (unplaced)

namespace Node

/-- The tree without its marks is bound to the same, or to the same error wherever that is
reported. -/
def MeansUnmarked (env : BindEnv) (n : Node) : Prop :=
  (n.unmarked.meaning env).mapError unplaced = (n.meaning env).mapError unplaced

end Node

namespace BindEnv

variable {env : BindEnv} {ns : List Node} {segment : Segment Node} {segments : List (Segment Node)}

/-- The tasks of nodes, without slots. -/
abbrev plainTasks (env : BindEnv) (ns : List Node) : List (Task (Except BuildError)) :=
  ns.map (Node.task env)

/-- A segment with the tasks of its arguments, without slots. -/
abbrev plainSegment (env : BindEnv) (segment : Segment Node) : Segment (Task (Except BuildError)) :=
  segment.map (Node.task env)

theorem nodes_plainTasks (ns : List Node) : (env.plainTasks ns).map Task.node = ns := by
  rw [List.map_map]
  exact (List.map_congr_left fun n _ => Node.task_node env n).trans (List.map_id ns)

theorem bindAll_unmarked (h : ∀ n ∈ ns, n.MeansUnmarked env) :
    (bindAll (env.plainTasks (ns.map Node.unmarked))).mapError unplaced =
      (bindAll (env.plainTasks ns)).mapError unplaced := by
  induction ns with
  | nil => rfl
  | cons n ns ih =>
    obtain ⟨hn, hns⟩ := List.forall_mem_cons.mp h
    rw [Node.MeansUnmarked, Node.meaning, Node.meaning] at hn
    simp only [List.map_cons, bindAll, Except.mapError_bind, hn, ih hns]

/-! ### Blocks and casts -/

theorem foldRest_unmarked : ∀ (ns : List Node) (acc : Bound), (∀ n ∈ ns, n.MeansUnmarked env) →
    (env.foldRest acc (env.plainTasks (ns.map Node.unmarked))).mapError unplaced =
      (env.foldRest acc (env.plainTasks ns)).mapError unplaced
  | [], _, _ => rfl
  | .operator mark .bar :: rest, acc, _ => rfl
  | [.operator mark (.arith op)], acc, _ => rfl
  | .operator mark (.arith op) :: right :: rest, acc, h => by
    have hright := h right (by simp)
    rw [Node.MeansUnmarked, Node.meaning, Node.meaning] at hright
    have hrest := fun b => foldRest_unmarked rest b fun n hn => h n (by simp [hn])
    simp only [List.map_cons, Node.unmarked, foldRest, Node.task_node, Node.isOperator,
      Node.unmarked_operator?]
    split
    · rfl
    · simp only [Except.mapError_bind, hright, hrest]
  | .unresolved mark raw :: rest, acc, _ => rfl
  | .constant .. :: rest, acc, _ | .cast .. :: rest, acc, _ | .route .. :: rest, acc, _
  | .block .. :: rest, acc, _ => by
    simp only [List.map_cons, Node.unmarked, foldRest, Node.task_node]
    rfl

theorem splitSign_unmarked (ns : List Node) :
    Node.splitSign (ns.map Node.unmarked) =
      ((Node.splitSign ns).1, (Node.splitSign ns).2.map Node.unmarked) := by
  cases ns with
  | nil => rfl
  | cons n rest =>
    simp only [List.map_cons, Node.splitSign, Node.unmarked_operator?]
    split
    · split <;> rfl
    · rfl

theorem foldItems_unmarked (h : ∀ n ∈ ns, n.MeansUnmarked env) :
    (env.foldItems (env.plainTasks (ns.map Node.unmarked))).mapError unplaced =
      (env.foldItems (env.plainTasks ns)).mapError unplaced := by
  have hsuffix := Node.splitSign_suffix ns
  rw [Node.foldItems_map, Node.foldItems_map, splitSign_unmarked]
  rcases hs : Node.splitSign ns with ⟨negative, _ | ⟨first, rest⟩⟩
  · rfl
  · rw [hs] at hsuffix
    obtain ⟨hfirst, hrest⟩ := List.forall_mem_cons.mp fun n hn => h n (hsuffix.subset hn)
    rw [Node.MeansUnmarked, Node.meaning, Node.meaning] at hfirst
    simp only [List.map_cons, Node.unmarked_operator?]
    split
    · rfl
    · simp only [Except.mapError_bind, hfirst, foldRest_unmarked rest _ hrest]

theorem castSign_unmarked (signs : List (Mark × Operator)) :
    (castSign (signs.map fun sign => (default, sign.2))).mapError unplaced =
      (castSign signs).mapError unplaced := by
  cases signs with
  | nil => rfl
  | cons sign rest =>
    simp only [castSign, List.map_cons]
    cases sign.2.isSign with
    | true => cases rest <;> rfl
    | false => rfl

/-! ### Routes -/

theorem callMethod_unmarked (h : ∀ n ∈ ns, n.MeansUnmarked env) (target : Option Bound) (owner : Ty)
    (name : String) (generics : List TypeName) :
    (env.callMethod target owner name generics (env.plainTasks (ns.map Node.unmarked))).mapError
      unplaced =
      (env.callMethod target owner name generics (env.plainTasks ns)).mapError unplaced := by
  simp only [callMethod, Except.mapError_bind, bindAll_unmarked h]

theorem indexTarget_unmarked (h : ∀ n ∈ ns, n.MeansUnmarked env) (target : Bound) :
    (env.indexTarget target (env.plainTasks (ns.map Node.unmarked))).mapError unplaced =
      (env.indexTarget target (env.plainTasks ns)).mapError unplaced := by
  simp only [indexTarget, Except.mapError_bind, bindAll_unmarked h]

theorem bindInstance_unmarked (h : ∀ n ∈ segment.args, n.MeansUnmarked env) (target : Bound) :
    (env.bindInstance target (env.plainSegment (segment.unmarked Node.unmarked))).mapError
      unplaced =
      (env.bindInstance target (env.plainSegment segment)).mapError unplaced := by
  cases segment with
  | member mark name generics => rfl
  | method mark name generics args =>
    exact callMethod_unmarked h (some target) target.ty name generics
  | indexer mark args => exact indexTarget_unmarked h target

theorem bindStatic_unmarked (h : ∀ n ∈ segment.args, n.MeansUnmarked env) (ty : Ty) :
    (env.bindStatic ty (env.plainSegment (segment.unmarked Node.unmarked))).mapError unplaced =
      (env.bindStatic ty (env.plainSegment segment)).mapError unplaced := by
  cases segment with
  | member mark name generics => rfl
  | method mark name generics args => exact callMethod_unmarked h none ty name generics
  | indexer mark args =>
    have htext := Node.segmentText_map (s := .indexer mark args) fun n _ => n.render_unmarked
    simp only [plainSegment, Segment.unmarked, Segment.map, bindStatic, nodes_plainTasks,
      Node.renderSegment_eq]
    rw [← htext]
    rfl

theorem bindLinks_unmarked (h : ∀ s ∈ segments, ∀ n ∈ s.args, n.MeansUnmarked env)
    (target : Bound) :
    (env.bindLinks target
        ((segments.map (Segment.unmarked Node.unmarked)).map env.plainSegment)).mapError unplaced =
      (env.bindLinks target (segments.map env.plainSegment)).mapError unplaced := by
  induction segments generalizing target with
  | nil => rfl
  | cons s rest ih =>
    obtain ⟨hs, hrest⟩ := List.forall_mem_cons.mp h
    simp only [List.map_cons, bindLinks, BindMonad.keep, Except.mapError_bind,
      bindInstance_unmarked hs, ih hrest]

theorem bindTypeRoute_unmarked (h : ∀ s ∈ segments, ∀ n ∈ s.args, n.MeansUnmarked env)
    (path : List String) :
    (env.bindTypeRoute path
        ((segments.map (Segment.unmarked Node.unmarked)).map env.plainSegment)).mapError unplaced =
      (env.bindTypeRoute path (segments.map env.plainSegment)).mapError unplaced := by
  induction segments generalizing path with
  | nil => rfl
  | cons s rest ih =>
    obtain ⟨-, hrest⟩ := List.forall_mem_cons.mp h
    cases s with
    | member mark name generics =>
      simp only [List.map_cons, Segment.unmarked, Segment.map, bindTypeRoute]
      split
      · exact ih hrest _
      · cases rest with
        | nil => rfl
        | cons next rest =>
          obtain ⟨hnext, hrest⟩ := List.forall_mem_cons.mp hrest
          simp only [List.map_cons, BindMonad.keep, Except.mapError_bind, bindStatic_unmarked hnext,
            bindLinks_unmarked hrest]
    | method mark name generics args => rfl
    | indexer mark args => rfl

theorem bindRoute_unmarked (h : ∀ s ∈ segments, ∀ n ∈ s.args, n.MeansUnmarked env)
    (head : RouteHead) :
    (env.bindRoute head
        ((segments.map (Segment.unmarked Node.unmarked)).map env.plainSegment)).mapError unplaced =
      (env.bindRoute head (segments.map env.plainSegment)).mapError unplaced := by
  have htype := bindTypeRoute_unmarked h []
  cases head with
  | type => exact htype
  | scope =>
    rcases segments with _ | ⟨s, rest⟩
    · exact htype
    · obtain ⟨hs, hrest⟩ := List.forall_mem_cons.mp h
      cases s with
      | member mark name generics =>
        cases generics with
        | cons => exact htype
        | nil =>
          simp only [List.map_cons, Segment.unmarked, Segment.map, bindRoute,
            Except.mapError_bind] at htype ⊢
          have hname : (env.bindName default name : Except BuildError (Option Bound)) =
              env.bindName mark name := rfl
          rw [hname]
          refine bind_congr fun found => ?_
          cases found with
          | none => exact htype
          | some b => exact bindLinks_unmarked hrest b
      | method mark name generics args =>
        have hargs : ∀ n ∈ args, n.MeansUnmarked env := hs
        simp only [List.map_cons, Segment.unmarked, Segment.map, bindRoute, BindMonad.keep]
        split
        · rfl
        · simp only [Except.mapError_bind, callMethod_unmarked hargs, bindLinks_unmarked hrest]
      | indexer mark args => exact htype

end BindEnv

namespace Node

/-- **Marks do not change what a tree is bound to**, nor the error but for the place it is reported
at. -/
theorem meansUnmarked (env : BindEnv) (n : Node) : n.MeansUnmarked env := by
  induction n using Node.induct with
  | constant mark v => rfl
  | operator mark op => rfl
  | unresolved mark raw => rfl
  | cast mark typeMark target signs operand ih =>
    rw [MeansUnmarked, meaning, meaning] at ih ⊢
    simp only [unmarked, task, kept, BindMonad.keep, BindEnv.bindCast, Except.ofExcept_eq,
      Except.mapError_bind, BindEnv.castSign_unmarked, ih]
  | route mark head segments ih =>
    rw [MeansUnmarked, meaning, meaning]
    simp only [unmarked, task, kept, BindMonad.keep, unmarkedSegments_eq_map, taskSegments_eq_map,
      Except.mapError_bind, BindEnv.bindRoute_unmarked ih]
  | block mark items ih =>
    rw [MeansUnmarked, meaning, meaning]
    simp only [unmarked, task, kept, BindMonad.keep, unmarkedAll_eq_map, tasks_eq_map,
      Except.mapError_bind, BindEnv.foldItems_unmarked ih]

theorem meaning_unmarked (env : BindEnv) (n : Node) : n.BindsUnmarked env := by
  have hsame := congrArg Except.toOption (n.meansUnmarked env)
  rwa [Except.toOption_mapError, Except.toOption_mapError] at hsame

end Node

/-! ## Trees that agree -/

/-- Trees that are the same up to marks and, if `strict`, altogether. -/
def Node.Agrees (strict : Prop) (n n' : Node) : Prop := n'.unmarked = n.unmarked ∧ (strict → n' = n)

/-- The same operator, with the same mark if `strict`. -/
abbrev SignAgrees (strict : Prop) (sign sign' : Mark × Operator) : Prop :=
  sign'.2 = sign.2 ∧ (strict → sign' = sign)

/-- The same segment, with the same mark if `strict`, and with arguments that compare one by one. -/
inductive Segment.Agrees {α β : Type} (strict : Prop) (R : α → β → Prop) :
    Segment α → Segment β → Prop
  | member {mark mark' : Mark} (hmark : strict → mark' = mark) (name : String)
      (generics : List TypeName) :
    Agrees strict R (.member mark name generics) (.member mark' name generics)
  | method {mark mark' : Mark} {args : List α} {args' : List β} (hmark : strict → mark' = mark)
      (name : String) (generics : List TypeName) (h : List.Forall₂ R args args') :
    Agrees strict R (.method mark name generics args) (.method mark' name generics args')
  | indexer {mark mark' : Mark} {args : List α} {args' : List β} (hmark : strict → mark' = mark)
      (h : List.Forall₂ R args args') :
    Agrees strict R (.indexer mark args) (.indexer mark' args')

variable {strict : Prop}

/-- Lists agree if their elements do, one by one. -/
theorem forall₂_agrees {α β : Type} {f : α → β} {xs ys : List α} :
    List.Forall₂ (fun x y => f y = f x ∧ (strict → y = x)) xs ys ↔
      ys.map f = xs.map f ∧ (strict → ys = xs) := by
  induction xs generalizing ys with
  | nil => cases ys <;> simp
  | cons x xs ih =>
    cases ys with
    | nil => simp
    | cons y ys =>
      rw [List.forall₂_cons, ih, List.map_cons, List.map_cons, List.cons_eq_cons, List.cons_eq_cons]
      tauto

theorem Segment.agrees_iff {s s' : Segment Node} :
    s.Agrees strict (Node.Agrees strict) s' ↔
      s'.unmarked Node.unmarked = s.unmarked Node.unmarked ∧ (strict → s' = s) := by
  constructor
  · rintro (⟨hmark, name, generics⟩ | ⟨hmark, name, generics, h⟩ | ⟨hmark, h⟩)
    · exact ⟨rfl, fun hs => by rw [hmark hs]⟩
    · obtain ⟨hargs, hsame⟩ := forall₂_agrees.mp h
      exact ⟨by rw [unmarked, unmarked, hargs], fun hs => by rw [hmark hs, hsame hs]⟩
    · obtain ⟨hargs, hsame⟩ := forall₂_agrees.mp h
      exact ⟨by rw [unmarked, unmarked, hargs], fun hs => by rw [hmark hs, hsame hs]⟩
  · rintro ⟨hunmarked, hsame⟩
    cases s <;> cases s' <;> simp only [unmarked, reduceCtorEq, Segment.member.injEq,
      Segment.method.injEq, Segment.indexer.injEq, true_and] at hunmarked
    · obtain ⟨rfl, rfl⟩ := hunmarked
      exact .member (fun hs => by cases hsame hs; rfl) _ _
    · obtain ⟨rfl, rfl, hargs⟩ := hunmarked
      exact .method (fun hs => by cases hsame hs; rfl) _ _
        (forall₂_agrees.mpr ⟨hargs, fun hs => by cases hsame hs; rfl⟩)
    · exact .indexer (fun hs => by cases hsame hs; rfl)
        (forall₂_agrees.mpr ⟨hunmarked, fun hs => by cases hsame hs; rfl⟩)

theorem Segment.forall₂_agrees_iff {segments segments' : List (Segment Node)} :
    List.Forall₂ (Segment.Agrees strict (Node.Agrees strict)) segments segments' ↔
      segments'.map (Segment.unmarked Node.unmarked) =
        segments.map (Segment.unmarked Node.unmarked) ∧
        (strict → segments' = segments) := by
  rw [← forall₂_agrees]
  exact ⟨fun h => h.imp fun _ _ => Segment.agrees_iff.mp,
    fun h => h.imp fun _ _ => Segment.agrees_iff.mpr⟩

namespace Node.Agrees

variable {n n' : Node} {mark mark' : Mark}

theorem refl (n : Node) : n.Agrees strict n := ⟨rfl, fun _ => rfl⟩

theorem operator?_eq (h : n.Agrees strict n') : n'.operator? = n.operator? := by
  rw [← unmarked_operator?, h.1, unmarked_operator?]

theorem isOperator_eq (h : n.Agrees strict n') : n'.isOperator = n.isOperator := by
  rw [isOperator, isOperator, h.operator?_eq]

theorem isBlock_eq (h : n.Agrees strict n') : n'.isBlock = n.isBlock := by
  rw [← unmarked_isBlock, h.1, unmarked_isBlock]

theorem offset_eq (h : n.Agrees strict n') (hs : strict) : n'.offset = n.offset := by rw [h.2 hs]

/-- What one of two trees that agree is bound to, the other one is. -/
theorem meaning_ok {env : BindEnv} {b : Bound} (h : n.Agrees strict n')
    (hn : n'.meaning env = .ok b) :
    n.meaning env = .ok b := by
  have hsame : (n.meaning env).toOption = (n'.meaning env).toOption := by
    rw [← meaning_unmarked env n, ← h.1, meaning_unmarked env n']
  rw [hn] at hsame
  exact Except.toOption_eq_some hsame

/-! The trees that agree with a tree are of the same kind, with parts that agree. -/

theorem operator_iff {op : Operator} :
    (Node.operator mark op).Agrees strict n' ↔
      ∃ mark', n' = .operator mark' op ∧ (strict → mark' = mark) := by
  constructor
  · rintro ⟨hunmarked, hsame⟩
    cases n' with
    | operator mark' op' =>
      cases hunmarked
      exact ⟨mark', rfl, fun hs => by cases hsame hs; rfl⟩
    | _ => cases hunmarked
  · rintro ⟨mark', rfl, hmark⟩
    exact ⟨rfl, fun hs => by rw [hmark hs]⟩

theorem block_iff {ns : List Node} :
    (Node.block mark ns).Agrees strict n' ↔ ∃ mark' ns', n' = .block mark' ns' ∧
      (strict → mark' = mark) ∧
      List.Forall₂ (Node.Agrees strict) ns ns' := by
  constructor
  · rintro ⟨hunmarked, hsame⟩
    cases n' with
    | block mark' ns' =>
      simp only [unmarked, unmarkedAll_eq_map, Node.block.injEq, true_and] at hunmarked
      exact ⟨mark', ns', rfl, fun hs => by cases hsame hs; rfl,
        forall₂_agrees.mpr ⟨hunmarked, fun hs => by cases hsame hs; rfl⟩⟩
    | _ => cases hunmarked
  · rintro ⟨mark', ns', rfl, hmark, h⟩
    obtain ⟨hns, hsame⟩ := forall₂_agrees.mp h
    refine ⟨?_, fun hs => by rw [hmark hs, hsame hs]⟩
    rw [unmarked, unmarked, unmarkedAll_eq_map, unmarkedAll_eq_map, hns]

theorem route_iff {head : RouteHead} {segments : List (Segment Node)} :
    (Node.route mark head segments).Agrees strict n' ↔ ∃ mark' segments',
      n' = .route mark' head segments' ∧
      (strict → mark' = mark) ∧
      List.Forall₂ (Segment.Agrees strict (Node.Agrees strict)) segments segments' := by
  constructor
  · rintro ⟨hunmarked, hsame⟩
    cases n' with
    | route mark' head' segments' =>
      simp only [unmarked, unmarkedSegments_eq_map, Node.route.injEq, true_and] at hunmarked
      obtain ⟨rfl, hunmarked⟩ := hunmarked
      exact ⟨mark', segments', rfl, fun hs => by cases hsame hs; rfl,
        Segment.forall₂_agrees_iff.mpr ⟨hunmarked, fun hs => by cases hsame hs; rfl⟩⟩
    | _ => cases hunmarked
  · rintro ⟨mark', segments', rfl, hmark, h⟩
    obtain ⟨hsegments, hsame⟩ := Segment.forall₂_agrees_iff.mp h
    refine ⟨?_, fun hs => by rw [hmark hs, hsame hs]⟩
    rw [unmarked, unmarked, unmarkedSegments_eq_map, unmarkedSegments_eq_map, hsegments]

theorem cast_iff {typeMark : Mark} {target : TypeName} {signs : List (Mark × Operator)}
    {operand : Node} :
    (Node.cast mark typeMark target signs operand).Agrees strict n' ↔
      ∃ mark' typeMark' signs' operand', n' = .cast mark' typeMark' target signs' operand' ∧
        (strict → mark' = mark) ∧
      (strict → typeMark' = typeMark) ∧ List.Forall₂ (SignAgrees strict) signs signs' ∧
      operand.Agrees strict operand' := by
  constructor
  · rintro ⟨hunmarked, hsame⟩
    cases n' with
    | cast mark' typeMark' target' signs' operand' =>
      simp only [unmarked, Node.cast.injEq, true_and] at hunmarked
      obtain ⟨rfl, hsigns, hoperand⟩ := hunmarked
      have hsigns := congrArg (List.map Prod.snd) hsigns
      simp only [List.map_map, Function.comp_def] at hsigns
      exact ⟨mark', typeMark', signs', operand', rfl, fun hs => by cases hsame hs; rfl,
        fun hs => by cases hsame hs; rfl,
        forall₂_agrees.mpr ⟨hsigns, fun hs => by cases hsame hs; rfl⟩, hoperand,
        fun hs => by cases hsame hs; rfl⟩
    | _ => cases hunmarked
  · rintro ⟨mark', typeMark', signs', operand', rfl, hmark, htype, h, hoperand⟩
    obtain ⟨hsigns, hsame⟩ := forall₂_agrees.mp h
    have hblank : ∀ signs : List (Mark × Operator), signs.map (fun sign => (default, sign.2)) =
        (signs.map Prod.snd).map fun op => ((default : Mark), op) := fun signs => by
      rw [List.map_map]
      rfl
    refine ⟨?_, fun hs => by rw [hmark hs, htype hs, hsame hs, hoperand.2 hs]⟩
    rw [unmarked, unmarked, hblank, hblank, hsigns, hoperand.1]

end Node.Agrees

end Formula
