import Formula.Proofs.Passes
import Formula.Proofs.Prepared
import Formula.Registry.Standard

/-!
# How deep a tree is

The bound on nesting is a bound on the tree that is prepared (`Binder.prepare_height`). A level of
nesting is worth four nodes on a path: a block, the block of a product in it, a route, and the
segment whose arguments open the next level.

Type names are bounded too, as reading a list of type arguments uses up a level.
-/

namespace Formula

/-! ## Type names -/

namespace TypeName

mutual

/-- How many lists of type arguments are nested in a name. -/
def nesting : TypeName → Nat
  | ⟨_, _, args⟩ => nestingAll args

/-- How many lists are nested, a list of type arguments itself being one. -/
def nestingAll : List TypeName → Nat
  | [] => 0
  | t :: ts => max (nesting t + 1) (nestingAll ts)

end

theorem nesting_eq (t : TypeName) : t.nesting = nestingAll t.args := by
  cases t
  rw [nesting]

theorem nestingAll_le {ts : List TypeName} {k : Nat} :
    nestingAll ts ≤ k ↔ ∀ t ∈ ts, t.nesting < k := by
  induction ts with
  | nil => simp [nestingAll]
  | cons t ts ih => rw [nestingAll, Nat.max_le, ih, List.forall_mem_cons, Nat.succ_le_iff]

end TypeName

/-- What a list of repeated readings is made of. -/
theorem many_forall {ε σ α : Type} {size : σ → Nat} {step : σ → Except ε (Option (α × σ))}
    {P : α → Prop} (hstep : ∀ s a t, step s = .ok (some (a, t)) → P a) {s t : σ} {as : List α}
    (h : many size step s = .ok (as, t)) : ∀ a ∈ as, P a := by
  fun_induction many size step s generalizing as t with
  | case1 => cases h
  | case2 =>
    cases h
    simp
  | case3 => cases h
  | case4 s a t' hs hlt as' u hm ih =>
    cases h
    exact List.forall_mem_cons.mpr ⟨hstep _ _ _ hs, ih hm⟩
  | case5 s a t' hs hlt =>
    cases h
    exact List.forall_mem_singleton.mpr (hstep _ _ _ hs)

/-- A type name is read as the path of a name and those behind it, with what `list` reads, if it is
asked. -/
theorem readTypeName_ok {list : Cursor → Except ListFault (List TypeName × Cursor)}
    {c c' : Cursor} {t : TypeName} (h : readTypeName list c = .ok (t, c')) :
    ∃ path args, TypeName.ofPath? path args = some t ∧
      (∀ name ∈ path, ∃ d d' : Cursor, d.name? = some (name, d')) ∧
      (args = [] ∨ ∃ d d', list d = .ok (args, d')) := by
  unfold readTypeName at h
  split at h
  · cases h
  · rename_i first c₀ hfirst
    obtain ⟨⟨more, c₁⟩, hmore, h⟩ := Except.bind_ok h
    have hpath : ∀ name ∈ first :: more, ∃ d d' : Cursor, d.name? = some (name, d') := by
      refine List.forall_mem_cons.mpr
        ⟨⟨_, _, hfirst⟩, many_forall (fun c name c' hstep => ?_) hmore⟩
      rw [dotName, Except.ok.injEq] at hstep
      split at hstep
      · exact ⟨_, _, hstep⟩
      · cases hstep
    simp only at h
    split at h
    · obtain ⟨⟨args, c₂⟩, hargs, h⟩ := Except.bind_ok h
      simp only at h
      split at h
      · rename_i ht
        cases h
        exact ⟨_, args, ht, hpath, .inr ⟨_, _, hargs⟩⟩
      · cases h
    · obtain ⟨_, hargs, h⟩ := Except.bind_ok h
      cases hargs
      simp only at h
      split at h
      · rename_i ht
        cases h
        exact ⟨_, [], ht, hpath, .inl rfl⟩
      · cases h

/-- The entries of a list of type arguments are read with one level less. -/
theorem readTypeList_ok {room : Nat} {c c' : Cursor} {ts : List TypeName}
    (h : readTypeList room c = .ok (ts, c')) :
    ∃ inner, room = inner + 1 ∧ ∀ t ∈ ts, ∃ d d',
      readTypeName (readTypeList inner) d = .ok (t, d') := by
  cases room with
  | zero => cases h
  | succ room =>
    obtain ⟨⟨first, c₁⟩, hfirst, h⟩ := Except.bind_ok h
    obtain ⟨⟨more, c₂⟩, hmore, h⟩ := Except.bind_ok h
    simp only at h
    split at h
    · cases h
      refine ⟨room, rfl,
        List.forall_mem_cons.mpr ⟨⟨_, _, hfirst⟩, many_forall (fun c t c' hstep => ?_) hmore⟩⟩
      split at hstep
      · obtain ⟨⟨t', c''⟩, ht, he⟩ := Except.map_ok hstep
        cases he
        exact ⟨_, _, ht⟩
      · cases hstep
    · cases h

/-- Each list of type arguments uses up one level. -/
theorem readTypeList_nesting {room : Nat} {c c' : Cursor} {ts : List TypeName}
    (h : readTypeList room c = .ok (ts, c')) : TypeName.nestingAll ts ≤ room := by
  induction room generalizing c c' ts with
  | zero => cases h
  | succ room ih =>
    obtain ⟨inner, hroom, hts⟩ := readTypeList_ok h
    cases hroom
    refine TypeName.nestingAll_le.mpr fun t ht => Nat.lt_succ_of_le ?_
    obtain ⟨d, d', hread⟩ := hts t ht
    obtain ⟨path, args, hpath, -, hargs⟩ := readTypeName_ok hread
    rw [TypeName.nesting_eq, TypeName.ofPath?_args hpath]
    rcases hargs with rfl | ⟨_, _, hargs⟩
    · exact Nat.zero_le room
    · exact ih hargs

theorem typeArguments?_nesting {limit room : Nat} {c c' : Cursor}
    {generics : Option (List TypeName)} (h : typeArguments? limit room c = .ok (generics, c')) :
    TypeName.nestingAll (generics.getD []) ≤ room := by
  unfold typeArguments? at h
  split at h
  · split at h
    · rename_i hlist
      cases h
      exact readTypeList_nesting hlist
    · cases h
      exact Nat.zero_le room
    · cases h
  · cases h
    exact Nat.zero_le room

/-! ## Trees -/

/-- The type names in an element itself. -/
def Element.typeNames : Element → List TypeName
  | .node (.cast _ _ target _ _) => [target]
  | .segment s => s.generics
  | .node _ => []

/-- The type names in an element are nested no deeper than its type arguments. -/
theorem Element.nesting_le {k : Nat} (e : Element) (h : TypeName.nestingAll e.typeArguments ≤ k) :
    ∀ t ∈ e.typeNames, t.nesting ≤ k := by
  intro t ht
  cases e with
  | segment s => exact Nat.le_of_lt (TypeName.nestingAll_le.mp h t ht)
  | node n =>
    cases n with
    | cast mark typeMark target signs operand =>
      cases List.mem_singleton.mp ht
      rwa [TypeName.nesting_eq]
    | _ => cases ht

namespace Node

/-- The type names of a tree: those that are cast to, and type arguments. -/
def typeNames (n : Node) : List TypeName := n.elements.flatMap Element.typeNames

mutual

/-- Number of nodes on the longest path down to a leaf. Segments are nodes of their own, and so is
the type of a cast. -/
def height : Node → Nat
  | .constant .. | .operator .. | .unresolved .. => 1
  | .cast _ _ _ _ operand => 1 + max 1 (height operand)
  | .route _ _ segments => 1 + heightOfSegments segments
  | .block _ items => 1 + heightAll items

/-- The greatest height in a list, zero if it is empty. -/
def heightAll : List Node → Nat
  | [] => 0
  | n :: ns => max (height n) (heightAll ns)

/-- The greatest height of a segment, with its arguments below it. -/
def heightOfSegments : List (Segment Node) → Nat
  | [] => 0
  | .member .. :: rest => max 1 (heightOfSegments rest)
  | .method _ _ _ args :: rest | .indexer _ args :: rest =>
    max (1 + heightAll args) (heightOfSegments rest)

end

theorem heightAll_le {ns : List Node} {k : Nat} : heightAll ns ≤ k ↔ ∀ n ∈ ns, n.height ≤ k := by
  induction ns with
  | nil => simp [heightAll]
  | cons n ns ih => rw [heightAll, Nat.max_le, ih, List.forall_mem_cons]

theorem heightOfSegments_le {segments : List (Segment Node)} {k : Nat}
    (h : ∀ segment ∈ segments, ∀ n ∈ segment.args, n.height ≤ k) :
    heightOfSegments segments ≤ k + 1 := by
  induction segments with
  | nil => simp [heightOfSegments]
  | cons segment rest ih =>
    obtain ⟨hsegment, hrest⟩ := List.forall_mem_cons.mp h
    have hle := ih hrest
    have hargs := heightAll_le.mpr hsegment
    cases segment with
    | member =>
      rw [heightOfSegments]
      omega
    | method mark name generics args =>
      rw [heightOfSegments]
      simp only [Segment.args] at hargs
      omega
    | indexer mark args =>
      rw [heightOfSegments]
      simp only [Segment.args] at hargs
      omega

end Node

/-! ## Levels -/

/-- The height that a node may have at level `d`, of `limit` levels. -/
def Node.Fits (limit d : Nat) (n : Node) : Prop :=
  if n.isBlock then d ≤ limit ∧ n.height ≤ 4 * (limit - d) + 4 else n.height ≤ 4 * (limit - d) + 2

variable {limit d : Nat}

/-- A single item of a block at level `d`. -/
theorem Node.Fits.item_le {n : Node} (h : n.Fits limit (itemDepth d n)) :
    n.height ≤ 4 * (limit - d) + 2 := by
  unfold Node.Fits itemDepth at h
  split at h
  · obtain ⟨hd, hheight⟩ := h
    omega
  · exact h

/-- An item of a block, which may be the block of a product. -/
theorem ItemWith.height_le {s : Scope} {n : Node} (h : ItemWith s (Node.Fits limit) d n) :
    n.height ≤ 4 * (limit - d) + 3 := by
  rcases h with h | ⟨mark, items, rfl, -, h⟩
  · have hle := h.item_le
    omega
  · have hle := Node.heightAll_le.mpr fun i hi => (h i hi).item_le
    rw [Node.height]
    omega

/-- The arguments of an element itself. -/
def Element.args : Element → List Node
  | .segment s => s.args
  | .node _ => []

/-- An element of what was read: its type arguments have `G`, and its arguments are blocks. -/
structure Element.ReadAs (G : List TypeName → Prop) (e : Element) : Prop where
  typeArguments : G e.typeArguments
  args : ∀ n ∈ e.args, n.isBlock = true

theorem readRules_elements (G : List TypeName → Prop) (hG : G []) :
    ReadRules G (fun n => ∀ e ∈ n.elements, e.ReadAs G)
      (fun n => n.isBlock = true ∧ ∀ e ∈ n.elements, e.ReadAs G)
      (fun s => Element.ReadAs G (.segment s) ∧ ∀ n ∈ s.args, ∀ e ∈ n.elements, e.ReadAs G) where
  block _ h := ⟨rfl, Node.forall_elements_block.mpr ⟨⟨hG, nofun⟩, h⟩⟩
  parentheses _ h := Node.forall_elements_block.mpr ⟨⟨hG, nofun⟩, h⟩
  constant _ _ _ := List.forall_mem_singleton.mpr ⟨hG, nofun⟩
  operator _ _ := List.forall_mem_singleton.mpr ⟨hG, nofun⟩
  unresolved _ _ := List.forall_mem_singleton.mpr ⟨hG, nofun⟩
  member _ _ h := ⟨⟨h, nofun⟩, nofun⟩
  method _ _ h hargs := ⟨⟨h, fun n hn => (hargs n hn).1⟩, fun n hn => (hargs n hn).2⟩
  indexer _ _ hargs := ⟨⟨hG, fun n hn => (hargs n hn).1⟩, fun n hn => (hargs n hn).2⟩
  route _ _ h := Node.forall_elements_route.mpr ⟨⟨hG, nofun⟩, h⟩

theorem fits_of_not_block {n : Node} (hn : n.isBlock = false) :
    n.Fits limit d ↔ n.height ≤ 4 * (limit - d) + 2 := by
  unfold Node.Fits
  rw [hn]
  simp

theorem fits_of_block {n : Node} (hn : n.isBlock = true) :
    n.Fits limit d ↔ d ≤ limit ∧ n.height ≤ 4 * (limit - d) + 4 := by
  unfold Node.Fits
  rw [if_pos hn]

/-- Every level that arranging opens is worth four nodes. -/
theorem Scope.keeps_height (s : Scope) :
    s.Keeps (fun n => PlainItem n ∧ ∀ e ∈ n.elements, ∀ a ∈ e.args, a.isBlock = true)
      (Node.Fits s.limit) where
  items := by
    rintro mark items ⟨hplain, hall⟩ n hn
    exact ⟨plainItem_of_block hplain n hn, (Node.forall_elements_block.mp hall).2 n hn⟩
  args := by
    rintro mark head segments ⟨hplain, hall⟩ segment hs n hn
    exact ⟨plainItem_of_route hplain segment hs n hn,
      ((Node.forall_elements_route.mp hall).2 segment hs).2 n hn⟩
  noCast h := not_plainItem_cast h.1
  constant _ := (fits_of_not_block rfl).mpr (by rw [Node.height]; omega)
  operator _ := (fits_of_not_block rfl).mpr (by rw [Node.height]; omega)
  unresolved _ := (fits_of_not_block rfl).mpr (by rw [Node.height]; omega)
  block := by
    rintro d mark source items - hd - hitems
    have hle := Node.heightAll_le.mpr fun n hn => (hitems n hn).height_le
    refine (fits_of_block rfl).mpr ⟨hd, ?_⟩
    rw [Node.height]
    omega
  route := by
    rintro d mark head segments segments' ⟨-, hall⟩ hsegments
    have hread := (Node.forall_elements_route.mp hall).2
    have hargs : ∀ t ∈ segments', ∀ n ∈ t.args, n.height ≤ 4 * (s.limit - d) := by
      intro t ht n hn
      obtain ⟨segment, hs, hrel⟩ := exists_of_forall₂ hsegments ht
      obtain ⟨a, ha, hblock, hfits⟩ := exists_of_forall₂ hrel.args hn
      rw [(hread segment hs).1 a ha] at hblock
      obtain ⟨hd, hheight⟩ := (fits_of_block hblock).mp hfits
      omega
    have hle := Node.heightOfSegments_le hargs
    refine (fits_of_not_block rfl).mpr ?_
    rw [Node.height]
    omega
  cast := by
    rintro d mark typeMark n target signs operand hd - - hoperand
    have hle := hoperand.item_le
    refine (fits_of_block rfl).mpr ⟨hd, ?_⟩
    rw [Node.height]
    omega
  abs := by
    rintro d k offset mark items - hd - hitems
    have hle := Node.heightAll_le.mpr fun n hn => (hitems n hn).height_le
    refine (fits_of_not_block rfl).mpr ?_
    simp only [absNode, Node.height, Node.heightOfSegments, Node.heightAll]
    omega

/-! ## Prepared expressions -/

namespace Binder

/-- **The bound on nesting bounds the tree**: whatever the text, the host and the context are, no
path down the tree of a prepared expression has more than four nodes for each level of nesting, and
type names are nested no deeper than the levels. -/
theorem prepare_height {b : Binder} {context : Context} {source : String} {p : Prepared}
    (h : b.prepare context source = .ok p) :
    p.root.height ≤ 4 * (b.limits.nesting + 1) ∧
      ∀ t ∈ p.root.typeNames, t.nesting ≤ b.limits.nesting := by
  obtain ⟨-, root, nodes, hread, harrange, -⟩ := prepare_ok h
  have hplain : PlainItem root := .inr (Node.ofSource_yields hread).2
  have hrules := readRules_elements (fun g => TypeName.nestingAll g ≤ b.limits.nesting)
    (Nat.zero_le _)
  obtain ⟨-, hblock, helements⟩ := hrules.ofSource
    (fun room hroom c generics c' h => Nat.le_trans (typeArguments?_nesting h) hroom) hread
  refine ⟨?_, fun t ht => ?_⟩
  · obtain ⟨hsame, hfits⟩ := (b.scope context).keeps_height.arrange
      ⟨hplain, fun e he => (helements e he).args⟩ harrange
    exact ((fits_of_block (hsame.trans hblock)).mp hfits).2
  · obtain ⟨e, he, ht⟩ := List.mem_flatMap.mp ht
    have hkeeps := (b.scope context).keeps_mentions (fun _ => True)
      (fun g => TypeName.nestingAll g ≤ b.limits.nesting) (Nat.zero_le _)
    have hmentions := (hkeeps.arrange
      ⟨hplain, fun e he => ⟨fun _ => trivial, (helements e he).typeArguments⟩⟩ harrange).2
    exact e.nesting_le (hmentions e he).typeArguments t ht

/-- With one level of nesting the bound is reached. -/
theorem prepare_height_reached : ∃ p,
    prepare ⟨(Registry.standard []).host, ⟨100, 1, 1⟩, false⟩ ⟨none, []⟩ "1 + 2 * f<A>(3 + 4 * x)" =
        .ok p ∧
      p.root.height = 8 ∧ p.root.typeNames.length = 1 ∧
      p.root.height ≤ 4 * (1 + 1) ∧ ∀ t ∈ p.root.typeNames, t.nesting ≤ 1 := by
  obtain ⟨p, hp, hheight, hnames⟩ : ∃ p,
      prepare ⟨(Registry.standard []).host, ⟨100, 1, 1⟩, false⟩ ⟨none, []⟩
          "1 + 2 * f<A>(3 + 4 * x)" = .ok p ∧
        p.root.height = 8 ∧ p.root.typeNames.length = 1 :=
    Except.exists_ok (by decide +kernel)
  exact ⟨p, hp, hheight, hnames, prepare_height hp⟩

end Binder

end Formula
