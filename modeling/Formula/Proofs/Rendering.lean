import Formula.Proofs.IntegerText
import Formula.Proofs.Marks
import Formula.Proofs.TypeText

/-!
# What the text of a tree shows

`Node.written` is a tree as its text shows it. Marks are not shown, and neither is whether a route
starts at a type.

`bracketDepth` is how deep brackets nest in a text. For a tree of which all elements are plain and
spelled it is `Node.levels` (`Node.nests_render`), which counts them by the nodes.
-/

namespace Formula

/-! ## Trees as their text shows them -/

namespace Node

mutual

/-- A tree as its text shows it: without marks, and with all routes in scope. -/
def written : Node → Node
  | .constant _ v => .constant default v
  | .operator _ op => .operator default op
  | .cast _ _ target signs operand =>
    .cast default default target (signs.map fun sign => (default, sign.2)) (written operand)
  | .route _ _ segments => .route default .scope (writtenSegments segments)
  | .block _ items => .block default (writtenAll items)
  | .unresolved _ raw => .unresolved default raw

/-- `written` on each node of a list. -/
def writtenAll : List Node → List Node
  | [] => []
  | n :: ns => written n :: writtenAll ns

/-- `written` on each segment and its arguments. -/
def writtenSegments : List (Segment Node) → List (Segment Node)
  | [] => []
  | .member _ name generics :: rest => .member default name generics :: writtenSegments rest
  | .method _ name generics args :: rest =>
    .method default name generics (writtenAll args) :: writtenSegments rest
  | .indexer _ args :: rest => .indexer default (writtenAll args) :: writtenSegments rest

end

theorem writtenAll_eq_map (ns : List Node) : writtenAll ns = ns.map written := by
  induction ns with
  | nil => rfl
  | cons n ns ih => simp [writtenAll, ih]

theorem writtenSegments_eq_map (segments : List (Segment Node)) :
    writtenSegments segments = segments.map (Segment.unmarked written) := by
  induction segments with
  | nil => rfl
  | cons s rest ih =>
    cases s <;> simp [writtenSegments, Segment.unmarked, writtenAll_eq_map, ih]

@[simp] theorem written_operator? (n : Node) : n.written.operator? = n.operator? := by
  cases n <;> simp [written, operator?]

@[simp] theorem written_isBlock (n : Node) : n.written.isBlock = n.isBlock := by
  cases n <;> simp [written, isBlock]

theorem render_written (n : Node) : n.written.render = n.render := by
  induction n using Node.induct with
  | constant | operator | unresolved => rfl
  | cast mark typeMark target signs operand ih =>
    rw [written]
    exact render_cast_map (itemText_congr ih operand.written_isBlock)
  | route mark head segments ih =>
    rw [written, writtenSegments_eq_map]
    exact render_route_map ih
  | block mark items ih =>
    rw [written, writtenAll_eq_map]
    exact render_block_map fun n hn => itemText_congr (ih n hn) n.written_isBlock

/-! ## Texts as characters -/

theorem toList_render_block (mark : Mark) (first : Node) (rest : List Node) :
    (block mark (first :: rest)).render.toList =
      first.itemText.toList ++ rest.flatMap fun n => ' ' :: n.itemText.toList := by
  rw [render_block, List.map_cons, toList_intercalate_cons, List.flatMap_map]
  rfl

theorem toList_argsText_cons (first : Node) (rest : List Node) : (argsText (first :: rest)).toList =
    first.render.toList ++ rest.flatMap fun n => ',' :: ' ' :: n.render.toList := by
  rw [argsText, List.map_cons, toList_intercalate_cons, List.flatMap_map]
  rfl

/-- The text of a segment that is not the first. -/
def furtherText (s : Segment Node) : List Char :=
  if s.isIndexer then (segmentText s).toList else '.' :: (segmentText s).toList

theorem toList_render_route (mark : Mark) (head : RouteHead) (first : Segment Node)
    (rest : List (Segment Node)) :
    (route mark head (first :: rest)).render.toList =
      (segmentText first).toList ++ rest.flatMap furtherText := by
  rw [render_route]
  simp only [joinSegments, List.map_cons, String.toList_append, String.toList_join, List.map_map,
    List.flatMap_map]
  congr 1
  refine List.flatMap_congr fun s _ => ?_
  simp only [furtherText, Function.comp]
  split <;> simp

theorem itemText_of_isBlock {n : Node} (h : n.isBlock = true) :
    n.itemText.toList = '(' :: (n.render.toList ++ [')']) := by
  rw [itemText, parenthesize, if_pos h, String.toList_append, String.toList_append]
  rfl

end Node

/-! ## Brackets -/

/-- The brackets that open a level. -/
def openings : List Char := ['(', '[', '<']

/-- The brackets that close a level. -/
def closings : List Char := [')', ']', '>']

/-- The level behind a character, if `level` is the one in front of it. -/
def levelBehind (level : Nat) (c : Char) : Nat :=
  if c ∈ openings then level + 1 else if c ∈ closings then level - 1 else level

/-- How many brackets are open at most in a text, if `level` of them are in front of it. -/
def bracketDepth (level : Nat) : List Char → Nat
  | [] => level
  | c :: cs => max level (bracketDepth (levelBehind level c) cs)

theorem le_bracketDepth (level : Nat) (cs : List Char) : level ≤ bracketDepth level cs := by
  cases cs with
  | nil => exact Nat.le_refl level
  | cons c cs => exact Nat.le_max_left _ _

/-- All brackets in the text are closed in it, and they nest `k` deep. -/
def Nests (k : Nat) (cs : List Char) : Prop :=
  ∀ level more, bracketDepth level (cs ++ more) = max (level + k) (bracketDepth level more)

namespace Nests

variable {k k' : Nat} {cs ds : List Char}

theorem depth (h : Nests k cs) : bracketDepth 0 cs = k := by
  have hdepth := h 0 []
  rw [List.append_nil, bracketDepth] at hdepth
  omega

theorem nil : Nests 0 [] := fun level more => (Nat.max_eq_right (le_bracketDepth level more)).symm

theorem append (h : Nests k cs) (h' : Nests k' ds) : Nests (max k k') (cs ++ ds) := by
  intro level more
  rw [List.append_assoc, h, h']
  omega

theorem cons {x : Char} (hopen : x ∉ openings) (hclose : x ∉ closings) (h : Nests k cs) :
    Nests k (x :: cs) := by
  intro level more
  have hle := le_bracketDepth level more
  rw [List.cons_append, bracketDepth, levelBehind, if_neg hopen, if_neg hclose, h]
  omega

private theorem of_chars (h : ∀ x ∈ cs, x ∉ openings ∧ x ∉ closings) : Nests 0 cs := by
  induction cs with
  | nil => exact nil
  | cons x cs ih =>
    obtain ⟨hx, hcs⟩ := List.forall_mem_cons.mp h
    exact (ih hcs).cons hx.1 hx.2

theorem of_all {p : Char → Bool} (hp : (openings ++ closings).any p = false)
    (h : ∀ x ∈ cs, p x = true) :
    Nests 0 cs := by
  refine of_chars fun x hx => not_or.mp fun hmem => ?_
  exact List.any_eq_false.mp hp x (List.mem_append.mpr hmem) (h x hx)

/-- Brackets around a text are one level more. -/
theorem brackets {opening closing : Char} (hopen : opening ∈ openings) (hclose : closing ∈ closings)
    (hne : closing ∉ openings) (h : Nests k cs) : Nests (k + 1) (opening :: (cs ++ [closing])) := by
  intro level more
  have hle := le_bracketDepth level more
  rw [List.cons_append, List.append_assoc, List.singleton_append, bracketDepth, levelBehind,
    if_pos hopen, h, bracketDepth, levelBehind, if_neg hne, if_pos hclose, Nat.add_sub_cancel]
  omega

theorem flatMap {α : Type} {xs : List α} {piece : α → List Char} {depth : α → Nat}
    (h : ∀ x ∈ xs, Nests (depth x) (piece x)) :
    Nests (xs.foldr (fun x k => max (depth x) k) 0) (xs.flatMap piece) := by
  induction xs with
  | nil => exact nil
  | cons x xs ih =>
    obtain ⟨hx, hxs⟩ := List.forall_mem_cons.mp h
    exact hx.append (ih hxs)

end Nests

/-! ## Levels -/

theorem foldr_max_le {α : Type} {f : α → Nat} {xs : List α} {k : Nat} :
    xs.foldr (fun x m => max (f x) m) 0 ≤ k ↔ ∀ x ∈ xs, f x ≤ k := by
  induction xs with
  | nil => simp
  | cons x xs ih => rw [List.foldr_cons, Nat.max_le, ih, List.forall_mem_cons]

namespace Node

mutual

/-- How many brackets are open at most in the text of a node. -/
def levels : Node → Nat
  | .constant .. | .operator .. | .unresolved .. => 0
  | .cast _ _ target _ operand =>
    max (target.nesting + 1) (if operand.isBlock then levels operand + 1 else levels operand)
  | .route _ _ segments => levelsOfSegments segments
  | .block _ items => levelsOfItems items

/-- The greatest number in a list of items, of which blocks stand in parentheses. -/
def levelsOfItems : List Node → Nat
  | [] => 0
  | n :: ns => max (if n.isBlock then levels n + 1 else levels n) (levelsOfItems ns)

/-- The greatest number in a list of arguments. -/
def levelsOfArgs : List Node → Nat
  | [] => 0
  | n :: ns => max (levels n) (levelsOfArgs ns)

/-- The greatest number in the segments of a route. -/
def levelsOfSegments : List (Segment Node) → Nat
  | [] => 0
  | .member _ _ generics :: rest => max (TypeName.nestingAll generics) (levelsOfSegments rest)
  | .method _ _ generics args :: rest =>
    max (max (TypeName.nestingAll generics) (levelsOfArgs args + 1)) (levelsOfSegments rest)
  | .indexer _ args :: rest => max (levelsOfArgs args + 1) (levelsOfSegments rest)

end

/-- The levels of an item of a block, which stands in parentheses if it is one. -/
def itemLevels (n : Node) : Nat := if n.isBlock then n.levels + 1 else n.levels

theorem itemLevels_of_isBlock {n : Node} (h : n.isBlock = true) : n.itemLevels = n.levels + 1 := by
  rw [itemLevels, if_pos h]

/-- The levels of a segment. -/
def segmentLevels : Segment Node → Nat
  | .member _ _ generics => TypeName.nestingAll generics
  | .method _ _ generics args => max (TypeName.nestingAll generics) (levelsOfArgs args + 1)
  | .indexer _ args => levelsOfArgs args + 1

theorem levelsOfItems_eq_foldr (ns : List Node) :
    levelsOfItems ns = ns.foldr (fun n k => max n.itemLevels k) 0 := by
  induction ns with
  | nil => rfl
  | cons n ns ih => rw [levelsOfItems, List.foldr_cons, ih, itemLevels]

theorem levelsOfArgs_eq_foldr (ns : List Node) :
    levelsOfArgs ns = ns.foldr (fun n k => max n.levels k) 0 := by
  induction ns with
  | nil => rfl
  | cons n ns ih => rw [levelsOfArgs, List.foldr_cons, ih]

theorem levelsOfSegments_eq_foldr (segments : List (Segment Node)) :
    levelsOfSegments segments = segments.foldr (fun s k => max (segmentLevels s) k) 0 := by
  induction segments with
  | nil => rfl
  | cons s rest ih => cases s <;> rw [levelsOfSegments, List.foldr_cons, ih, segmentLevels]

theorem levelsOfItems_le {ns : List Node} {k : Nat} :
    levelsOfItems ns ≤ k ↔ ∀ n ∈ ns, n.itemLevels ≤ k := by
  rw [levelsOfItems_eq_foldr, foldr_max_le]

theorem levelsOfArgs_le {ns : List Node} {k : Nat} :
    levelsOfArgs ns ≤ k ↔ ∀ n ∈ ns, n.levels ≤ k := by
  rw [levelsOfArgs_eq_foldr, foldr_max_le]

theorem levelsOfSegments_le {segments : List (Segment Node)} {k : Nat} :
    levelsOfSegments segments ≤ k ↔ ∀ s ∈ segments, segmentLevels s ≤ k := by
  rw [levelsOfSegments_eq_foldr, foldr_max_le]

end Node

/-! ## Elements that are read back -/

/-- Whether the value is an `int` that is not negative. -/
def Value.isNatural : Value → Bool
  | .int .i32 x => 0 ≤ IntKind.i32.toInt x
  | _ => false

theorem Value.isNatural_iff {v : Value} :
    v.isNatural = true ↔ ∃ n : Nat, n < 2 ^ 31 ∧ v = .ofInt .i32 n := by
  constructor
  · intro h
    unfold Value.isNatural at h
    split at h
    · rename_i x
      have hpos : 0 ≤ IntKind.i32.toInt x := of_decide_eq_true h
      have hlt : IntKind.i32.toInt x < 2 ^ 31 := BitVec.toInt_lt
      refine ⟨(IntKind.i32.toInt x).toNat, by omega, ?_⟩
      rw [Int.toNat_of_nonneg hpos, Value.ofInt_toInt]
    · cases h
  · rintro ⟨n, hn, rfl⟩
    show decide (0 ≤ IntKind.i32.toInt (IntKind.i32.wrap n)) = true
    rw [IntKind.toInt_wrap (IntKind.i32_holds hn)]
    exact decide_eq_true (Int.natCast_nonneg n)

/-- Whether the text of an element tells what it is: it is no cast and no text that was not
resolved, and a constant is an integer below `2 ^ 31`. -/
def Element.isPlain : Element → Bool
  | .node (.constant _ v) => v.isNatural
  | .node (.cast ..) | .node (.unresolved ..) => false
  | _ => true

/-- Names are written as such, arguments are blocks, and an indexer has some. -/
structure Segment.Spelled (s : Segment Node) : Prop where
  name : ∀ name ∈ s.name?, IsName name.toList
  generics : ∀ t ∈ s.generics, t.Spelled
  args : ∀ n ∈ s.args, n.isBlock = true
  indexer : s.isIndexer = true → s.args ≠ []

/-- The elements as they can be written: blocks are not empty, and routes start with a name. Of
routes that start at a type, names are not all there is, so they cannot be taken for the type of a
cast. -/
def Element.IsSpelled : Element → Prop
  | .node (.block _ items) => items ≠ []
  | .node (.route _ head segments) =>
    (∃ first rest, segments = first :: rest ∧ first.isIndexer = false) ∧
      (head = .scope ∨ memberPath segments = none)
  | .segment s => s.Spelled
  | _ => True

/-! ## Levels are how deep brackets nest -/

theorem IsName.nests {cs : List Char} (h : IsName cs) : Nests 0 cs :=
  .of_all (p := isNameChar) rfl h.chars

theorem IsNumeral.nests {cs : List Char} {n : Nat} (h : IsNumeral cs n) : Nests 0 cs := by
  cases h with
  | decimal _ h => exact .of_all (p := Char.isDigit) rfl h
  | @hex mark digits hmark _ h =>
    have hdigits : Nests 0 digits := .of_all (p := isHexDigit) rfl h
    rcases hmark with rfl | rfl <;>
      exact (hdigits.cons (by decide) (by decide)).cons (by decide) (by decide)
  | @binary mark digits hmark _ h =>
    have hdigits : Nests 0 digits := .of_all (p := isBinaryDigit) rfl h
    rcases hmark with rfl | rfl <;>
      exact (hdigits.cons (by decide) (by decide)).cons (by decide) (by decide)

namespace TypeName

private theorem nestingAll_cons (a : TypeName) (args : List TypeName) :
    nestingAll (a :: args) = max a.nesting (args.foldr (fun t k => max t.nesting k) 0) + 1 := by
  induction args generalizing a with
  | nil => simp [nestingAll]
  | cons b args ih =>
    rw [nestingAll, ih b, List.foldr_cons]
    omega

theorem nests_argumentText {args : List TypeName} (h : ∀ t ∈ args, Nests t.nesting t.text.toList) :
    Nests (nestingAll args) (argumentText args).toList := by
  cases args with
  | nil => exact .nil
  | cons a args =>
    obtain ⟨ha, hargs⟩ := List.forall_mem_cons.mp h
    have hfurther : ∀ t ∈ args, Nests t.nesting (furtherText t) := fun t ht =>
      ((hargs t ht).cons (by decide) (by decide)).cons (by decide) (by decide)
    rw [toList_argumentText_cons, nestingAll_cons]
    exact (ha.append (.flatMap hfurther)).brackets (by decide) (by decide) (by decide)

theorem Spelled.nests {t : TypeName} (h : t.Spelled) : Nests t.nesting t.text.toList := by
  induction h with
  | @ofPath path args t hpath hargs ht ih =>
    rw [nesting_eq, ofPath?_args ht, text_ofPath? ht, String.toList_append]
    have hnames : Nests 0 (".".intercalate path).toList := by
      cases path with
      | nil => exact .nil
      | cons first others =>
        obtain ⟨hfirst, hothers⟩ := List.forall_mem_cons.mp hpath
        rw [toList_intercalate_cons]
        refine .of_all (p := fun x => isNameChar x || x = '.') rfl fun x hx => ?_
        rcases List.mem_append.mp hx with hx | hx
        · simp [hfirst.chars x hx]
        · obtain ⟨name, hname, hx⟩ := List.mem_flatMap.mp hx
          rcases List.mem_cons.mp hx with rfl | hx
          · rfl
          · simp [(hothers name hname).chars x hx]
    have hall := hnames.append (nests_argumentText ih)
    rwa [Nat.zero_max] at hall

end TypeName

namespace Node

/-- The item nests as the node does, with one level more if it stands in parentheses. -/
theorem nests_itemText {n : Node} (h : Nests n.levels n.render.toList) :
    Nests n.itemLevels n.itemText.toList := by
  cases hblock : n.isBlock with
  | true =>
    rw [itemLevels_of_isBlock hblock, itemText_of_isBlock hblock]
    exact h.brackets (by decide) (by decide) (by decide)
  | false => rwa [itemLevels, itemText, parenthesize, hblock, if_neg Bool.false_ne_true,
    if_neg Bool.false_ne_true]

theorem nests_argsText {args : List Node} (h : ∀ n ∈ args, Nests n.levels n.render.toList) :
    Nests (levelsOfArgs args) (argsText args).toList := by
  cases args with
  | nil => exact .nil
  | cons first rest =>
    obtain ⟨hfirst, hrest⟩ := List.forall_mem_cons.mp h
    have hfurther : ∀ n ∈ rest, Nests n.levels (',' :: ' ' :: n.render.toList) := fun n hn =>
      ((hrest n hn).cons (by decide) (by decide)).cons (by decide) (by decide)
    rw [toList_argsText_cons, levelsOfArgs, levelsOfArgs_eq_foldr]
    exact hfirst.append (.flatMap hfurther)

theorem nests_segmentText {s : Segment Node} (hs : s.Spelled)
    (h : ∀ n ∈ s.args, Nests n.levels n.render.toList) :
    Nests (segmentLevels s) (segmentText s).toList := by
  have hnamed : ∀ name ∈ s.name?,
      Nests (TypeName.nestingAll s.generics) (name ++ TypeName.argumentText s.generics).toList := by
    intro name hname
    have htext :=
      (hs.name name hname).nests.append
        (TypeName.nests_argumentText fun t ht => (hs.generics t ht).nests)
    rwa [Nat.zero_max, ← String.toList_append] at htext
  cases s with
  | member mark name generics => exact hnamed name rfl
  | method mark name generics args =>
    have hargs :=
      (nests_argsText h).brackets (by decide : '(' ∈ openings) (by decide : ')' ∈ closings)
        (by decide)
    have hall := (hnamed name rfl).append hargs
    simpa [segmentText, segmentLevels, Segment.args, Segment.generics] using hall
  | indexer mark args =>
    have hargs :=
      (nests_argsText h).brackets (by decide : '[' ∈ openings) (by decide : ']' ∈ closings)
        (by decide)
    simpa [segmentText, segmentLevels, Segment.args] using hargs

/-- **The brackets in the text of a tree** nest as deep as its levels are. -/
theorem nests_render (n : Node) (hplain : ∀ e ∈ n.elements, e.isPlain = true)
    (hspelled : ∀ e ∈ n.elements, e.IsSpelled) :
    Nests n.levels n.render.toList := by
  induction n using Node.induct with
  | constant mark v =>
    obtain ⟨n, hn, rfl⟩ := Value.isNatural_iff.mp (hplain _ (elements_self _))
    exact (isNumeral_render (IntKind.i32_holds hn)).nests
  | operator mark op =>
    rw [render, Char.toString_eq_singleton, String.toList_singleton]
    rcases op with (_ | _ | _ | _ | _ | _) | _ <;> exact .cons (by decide) (by decide) .nil
  | unresolved | cast => cases hplain _ (elements_self _)
  | route mark head segments ih =>
    obtain ⟨⟨⟨first, rest, rfl, -⟩, -⟩, hsegments⟩ := forall_elements_route.mp hspelled
    obtain ⟨-, hplains⟩ := forall_elements_route.mp hplain
    have htexts : ∀ s ∈ first :: rest, Nests (segmentLevels s) (segmentText s).toList := fun s hs =>
      nests_segmentText (hsegments s hs).1 fun n hn =>
        ih s hs n hn ((hplains s hs).2 n hn) ((hsegments s hs).2 n hn)
    obtain ⟨hfirst, hrest⟩ := List.forall_mem_cons.mp htexts
    -- the dot in front of a name is no bracket
    have hfurther : ∀ s ∈ rest, Nests (segmentLevels s) (furtherText s) := by
      intro s hs
      unfold furtherText
      split
      · exact hrest s hs
      · exact (hrest s hs).cons (by decide) (by decide)
    rw [toList_render_route, levels, levelsOfSegments_eq_foldr]
    exact hfirst.append (.flatMap hfurther)
  | block mark items ih =>
    obtain ⟨hne, hitems⟩ := forall_elements_block.mp hspelled
    obtain ⟨-, hplains⟩ := forall_elements_block.mp hplain
    have htexts : ∀ n ∈ items, Nests n.itemLevels n.itemText.toList := fun n hn =>
      nests_itemText (ih n hn (hplains n hn) (hitems n hn))
    obtain ⟨first, rest, rfl⟩ := List.exists_cons_of_ne_nil hne
    obtain ⟨hfirst, hrest⟩ := List.forall_mem_cons.mp htexts
    rw [toList_render_block, levels, levelsOfItems_eq_foldr]
    exact hfirst.append (.flatMap fun n hn => (hrest n hn).cons (by decide) (by decide))

end Node

end Formula
