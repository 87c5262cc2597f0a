import Formula.Proofs.Placement
import Formula.Proofs.Rearranging

/-!
# The text of a prepared expression

Preparing the text of a prepared expression gives a tree with the same text, if all elements are
plain and the text is within the limits. If no bars were arranged, it is the same tree but for its
marks, and so it is bound to the same result (`Binder.render_faithful`).
-/

namespace Formula

/-! ## What is read can be written -/

/-- A route starts in scope. -/
def Element.InScope : Element → Prop
  | .node (.route _ head _) => head = .scope
  | _ => True

namespace Segment.Spelled

variable {mark : Mark} {name : String} {generics : List TypeName} {args : List Node}

theorem member (hname : IsName name.toList) (hgenerics : ∀ t ∈ generics, t.Spelled) :
    Segment.Spelled (.member mark name generics) :=
  ⟨fun _ h => Option.some.inj h ▸ hname, hgenerics, nofun, nofun⟩

theorem method (hname : IsName name.toList) (hgenerics : ∀ t ∈ generics, t.Spelled)
    (hargs : ∀ n ∈ args, n.isBlock = true) : Segment.Spelled (.method mark name generics args) :=
  ⟨fun _ h => Option.some.inj h ▸ hname, hgenerics, hargs, nofun⟩

end Segment.Spelled

/-- An element of what was read. -/
structure Element.IsRead (e : Element) : Prop where
  spelled : e.IsSpelled
  inScope : e.InScope

theorem readRules_spelled :
    ReadRules (fun generics => ∀ t ∈ generics, t.Spelled) (fun n => ∀ e ∈ n.elements, e.IsRead)
      (fun n => n.isBlock = true ∧ ∀ e ∈ n.elements, e.IsRead)
      (fun s => s.Spelled ∧ ∀ n ∈ s.args, ∀ e ∈ n.elements, e.IsRead) where
  block hne h := ⟨rfl, Node.forall_elements_block.mpr ⟨⟨hne, trivial⟩, h⟩⟩
  parentheses hne h := Node.forall_elements_block.mpr ⟨⟨hne, trivial⟩, h⟩
  constant _ _ _ := List.forall_mem_singleton.mpr ⟨trivial, trivial⟩
  operator _ _ := List.forall_mem_singleton.mpr ⟨trivial, trivial⟩
  unresolved _ _ := List.forall_mem_singleton.mpr ⟨trivial, trivial⟩
  member _ hname hgenerics := ⟨.member hname hgenerics, nofun⟩
  method _ hname hgenerics hargs :=
    ⟨.method hname hgenerics fun n hn => (hargs n hn).1, fun n hn => (hargs n hn).2⟩
  indexer _ hne hargs :=
    ⟨⟨nofun, nofun, fun n hn => (hargs n hn).1, fun _ => hne⟩, fun n hn => (hargs n hn).2⟩
  route _ hfirst h :=
    Node.forall_elements_route.mpr ⟨⟨⟨⟨_, _, rfl, hfirst⟩, .inl rfl⟩, rfl⟩,
      fun s hs => ⟨⟨(h s hs).1, trivial⟩, (h s hs).2⟩⟩

theorem Node.ofSource_read {limit : Nat} {source : String} {root : Node} {nodes : Nat}
    (h : Node.ofSource limit source = .ok (root, nodes)) :
    root.isBlock = true ∧ ∀ e ∈ root.elements, e.IsRead :=
  (readRules_spelled.ofSource (fun _ _ _ _ _ h => TypeName.typeArguments?_spelled h) h).2

/-- Operators are characters of the text. -/
theorem Node.symbol_of_ofSource {limit : Nat} {source : String} {root : Node} {nodes : Nat}
    (h : Node.ofSource limit source = .ok (root, nodes)) :
    ∀ e ∈ root.elements, ∀ c ∈ e.symbol, c ∈ source.toList := by
  have hstart : (Cursor.start source).Within fun _ text => ∀ c ∈ text, c ∈ source.toList := by
    rintro d ⟨used, hrest, -⟩ text ⟨more, hmore⟩ c hc
    have hsource : source.toList = used ++ d.rest := hrest
    rw [hsource, ← hmore]
    exact List.mem_append_right used (List.mem_append_left more hc)
  have hstands := Node.ofSource_stands hstart limit
  rw [h] at hstands
  exact fun e he => (hstands e he).symbol

/-! ## What is arranged can be written -/

theorem Segment.Spelled.of_rel {s t : Segment Node} (h : s.Spelled)
    (hrel : Segment.Rel (fun n n' => n'.isBlock = n.isBlock) s t) : t.Spelled where
  name := by rw [hrel.name?_eq]; exact h.name
  generics := by rw [hrel.generics_eq]; exact h.generics
  args n' hn' := by
    obtain ⟨n, hn, hsame⟩ := exists_of_forall₂ hrel.args hn'
    rw [hsame, h.args n hn]
  indexer ht := by
    have hargs := hrel.args
    cases hrel with
    | member | method => cases ht
    | indexer =>
      intro hnil
      rw [hnil, List.forall₂_nil_right_iff] at hargs
      exact h.indexer rfl hargs

/-- Arranging leaves elements that can be written, and nothing else to arrange. -/
theorem Scope.keeps_spelled (s : Scope) :
    s.KeepsElements Element.IsSpelled fun e => e.IsSpelled ∧ e.IsArranged s where
  constant _ := ⟨trivial, trivial⟩
  operator _ := ⟨trivial, trivial⟩
  unresolved _ := ⟨trivial, trivial⟩
  block hne harranged := ⟨(harranged hne).ne_nil, harranged hne⟩
  made harranged := ⟨harranged.ne_nil, harranged⟩
  route := by
    rintro mark head segments segments' R ⟨⟨first, rest, rfl, hfirst⟩, hhead⟩ hsegments
    refine ⟨⟨?_, ?_⟩, trivial⟩
    · cases hsegments with
      | cons hrel hrest =>
        refine ⟨_, _, rfl, ?_⟩
        cases hrel with
        | member | method => rfl
        | indexer => cases hfirst
    · rwa [memberPath_congr hsegments]
  segment h hrel := ⟨h.of_rel hrel, trivial⟩
  cast _ _ := ⟨trivial, trivial⟩
  abs _ := ⟨⟨⟨_, _, rfl, rfl⟩, .inr rfl⟩, trivial⟩
  absMember hname := ⟨.member hname nofun, trivial⟩
  absMethod hname hargs := ⟨.method hname nofun hargs, trivial⟩

/-- Without bars, arranging makes no routes. -/
theorem Scope.keeps_inScope (s : Scope) :
    s.KeepsElements (fun e => e.InScope ∧ '|' ∉ e.symbol) Element.InScope where
  constant _ := trivial
  operator _ := trivial
  unresolved _ := trivial
  block _ _ := trivial
  made _ := trivial
  route h _ := h.1
  segment _ _ := trivial
  cast _ _ := trivial
  -- only bars make a route that does not start in scope
  abs h := (h.2 (List.mem_singleton.mpr rfl)).elim
  absMember _ := trivial
  absMethod _ _ := trivial

theorem Segment.unmarked_congr {f g : Node → Node} {s : Segment Node}
    (h : ∀ n ∈ s.args, f n = g n) :
    s.unmarked f = s.unmarked g := by
  cases s with
  | member => rfl
  | method | indexer => exact congrArg _ (List.map_congr_left h)

/-- If all routes start in scope, the text shows the whole tree. -/
theorem Node.written_of_inScope {n : Node} (h : ∀ e ∈ n.elements, e.InScope) :
    n.written = n.unmarked := by
  induction n using Node.induct with
  | constant | operator | unresolved => rfl
  | cast mark typeMark target signs operand ih =>
    rw [written, unmarked, ih (forall_elements_cast.mp h).2]
  | route mark head segments ih =>
    obtain ⟨hhead, hargs⟩ := forall_elements_route.mp h
    have hhead : head = .scope := hhead
    rw [written, unmarked, writtenSegments_eq_map, unmarkedSegments_eq_map, hhead]
    exact congrArg _ (List.map_congr_left fun segment hs =>
      Segment.unmarked_congr fun n hn => ih segment hs n hn ((hargs segment hs).2 n hn))
  | block mark items ih =>
    have hitems := (forall_elements_block.mp h).2
    rw [written, unmarked, writtenAll_eq_map, unmarkedAll_eq_map,
      List.map_congr_left fun n hn => ih n hn (hitems n hn)]

namespace Binder

variable {b : Binder} {context : Context} {source : String} {p : Prepared}

theorem prepare_spelled (h : b.prepare context source = .ok p) :
    p.root.isBlock = true ∧ ∀ e ∈ p.root.elements, e.IsSpelled ∧
      e.IsArranged (b.scope context) := by
  obtain ⟨-, root, nodes, hread, harrange, -⟩ := prepare_ok h
  have hplain : PlainItem root := .inr (Node.ofSource_yields hread).2
  obtain ⟨hblock, hroot⟩ := Node.ofSource_read hread
  obtain ⟨hsame, hall⟩ :=
    (b.scope context).keeps_spelled.keeps.arrange
      ⟨hplain, fun e he => (hroot e he).spelled⟩ harrange
  exact ⟨hsame.trans hblock, hall⟩

theorem prepare_inScope (h : b.prepare context source = .ok p) (hbars : '|' ∉ source.toList) :
    ∀ e ∈ p.root.elements, e.InScope := by
  obtain ⟨-, root, nodes, hread, harrange, -⟩ := prepare_ok h
  have hplain : PlainItem root := .inr (Node.ofSource_yields hread).2
  have hroot : ∀ e ∈ root.elements, e.InScope ∧ '|' ∉ e.symbol := fun e he =>
    ⟨((Node.ofSource_read hread).2 e he).inScope,
      fun hbar => hbars (Node.symbol_of_ofSource hread e he _ hbar)⟩
  exact ((b.scope context).keeps_inScope.keeps.arrange ⟨hplain, hroot⟩ harrange).2

/-- The text of a prepared expression is prepared to the tree that it shows. -/
theorem prepare_render (h : b.prepare context source = .ok p)
    (hplain : ∀ e ∈ p.root.elements, e.isPlain = true)
    (hlength : p.root.render.utf8ByteSize ≤ b.limits.sourceLength)
    (hdepth : bracketDepth 0 p.root.render.toList ≤ b.limits.nesting) :
    ∃ p', b.prepare context p.root.render = .ok p' ∧ p'.root.unmarked = p.root.written := by
  obtain ⟨hblock, hall⟩ := prepare_spelled h
  have hspelled : ∀ e ∈ p.root.elements, e.IsSpelled := fun e he => (hall e he).1
  have hlevels : p.root.levels ≤ b.limits.nesting := by
    rwa [← (p.root.nests_render hplain hspelled).depth]
  obtain ⟨q, nodes, hread, hq⟩ := Node.ofSource_render hblock hplain hspelled hlevels
  -- what is read looks like the arranged tree, so arranging it finds nothing to do
  have hidle : (q.pend (b.scope context)).Idle 0 :=
    Node.finish_of_written hplain hspelled (fun e he => (hall e he).2) hq (by rwa [Nat.zero_add])
  have harrange : (q.arrange (b.scope context)).run nodes = .ok (q, nodes) := by
    rw [Node.arrange, hidle, Node.pend_node]
    rfl
  refine ⟨⟨q, nodes, .empty nodes⟩, ?_, hq⟩
  rw [prepare, if_neg (Nat.not_lt.mpr hlength), hread]
  show (q.arrange (b.scope context)).run nodes >>=
    (fun x => Except.ok (Prepared.mk x.1 x.2 (.empty x.2))) = _
  rw [harrange]
  rfl

/-- Trees that differ in their marks only are bound to the same result, but for the place of an
error. -/
theorem bind_of_unmarked {source' : String} {p' : Prepared} (h : b.prepare context source = .ok p)
    (h' : b.prepare context source' = .ok p') (hsame : p'.root.unmarked = p.root.unmarked)
    (b' : Binder) (context' : Context) :
    (b'.bind context' p').1.mapError BuildError.unplaced =
      (b'.bind context' p).1.mapError BuildError.unplaced := by
  have hmeaning : (p'.root.meaning (b'.env context')).mapError BuildError.unplaced =
      (p.root.meaning (b'.env context')).mapError BuildError.unplaced := by
    rw [← Node.meansUnmarked, hsame, Node.meansUnmarked]
  rw [bind_eq_meaning h, bind_eq_meaning h', Except.mapError_map, hmeaning, Except.mapError_map]

/-- **The text of a prepared expression is a faithful picture of it.** Let its constants be integers
below `2 ^ 31`, and let it hold neither casts nor texts that were not resolved. If its text is
within the limits, that text is prepared in the same context to a tree with the same text. If the
source has no bars, the two trees differ in their marks only, and binding gives the same result for
both, or the same error but for its place. -/
theorem render_faithful (h : b.prepare context source = .ok p)
    (hplain : ∀ e ∈ p.root.elements, e.isPlain = true)
    (hlength : p.root.render.utf8ByteSize ≤ b.limits.sourceLength)
    (hdepth : bracketDepth 0 p.root.render.toList ≤ b.limits.nesting) :
    ∃ p', b.prepare context p.root.render = .ok p' ∧ p'.root.render = p.root.render ∧
      ('|' ∉ source.toList → p'.root.unmarked = p.root.unmarked ∧
        ∀ (b' : Binder) (context' : Context), (b'.bind context' p').1.mapError BuildError.unplaced =
          (b'.bind context' p).1.mapError BuildError.unplaced) := by
  obtain ⟨p', hp', hroot⟩ := prepare_render h hplain hlength hdepth
  refine ⟨p', hp', ?_, fun hbars => ?_⟩
  · rw [← Node.render_unmarked, hroot, Node.render_written]
  · have hsame : p'.root.unmarked = p.root.unmarked := by
      rw [hroot, Node.written_of_inScope (prepare_inScope h hbars)]
    exact ⟨hsame, bind_of_unmarked h hp' hsame⟩

/-- Products in a sum, a call with type arguments, an indexer and parentheses. -/
theorem render_faithful_sum :
    let b : Binder := ⟨(Registry.standard []).host, .standard, false⟩
    let context : Context := ⟨none, [⟨"x", .i32⟩]⟩
    let source := "x-2*(x.F<int, List<x.y>>(x+1,-3)[x]/4)"
    ∃ p p', b.prepare context source = .ok p ∧ b.prepare context p.root.render = .ok p' ∧
      p.root.render ≠ source ∧ p'.root.render = p.root.render ∧ p'.root.unmarked = p.root.unmarked ∧
      ∀ (b' : Binder) (context' : Context), (b'.bind context' p').1.mapError BuildError.unplaced =
        (b'.bind context' p).1.mapError BuildError.unplaced := by
  intro b context source
  obtain ⟨p, hp, hplain, hlength, hdepth, hne⟩ : ∃ p, b.prepare context source = .ok p ∧
      (∀ e ∈ p.root.elements, e.isPlain = true) ∧
      p.root.render.utf8ByteSize ≤ b.limits.sourceLength ∧
      bracketDepth 0 p.root.render.toList ≤ b.limits.nesting ∧ p.root.render ≠ source :=
    Except.exists_ok (by decide +kernel)
  obtain ⟨p', hp', hrender, hbind⟩ := render_faithful hp hplain hlength hdepth
  obtain ⟨hsame, hbind⟩ := hbind (by decide +kernel)
  exact ⟨p, p', hp, hp', hne, hrender, hsame, hbind⟩

end Binder

end Formula
