import Formula.Node.Read
import Formula.Proofs.Numbering
import Formula.Proofs.ReadingProgress

/-!
# What is read

Reading numbers the nodes in the order in which they end, so the nodes of a text have distinct
numbers below the count of nodes that comes with the tree. It makes no casts, and operators only as
elements of blocks. `Node.ofSource_yields` says both.

* `Fresh k k' S`: the numbers `S` are distinct and were given out while the count went from `k` to
  `k'`.
* `ReadRules`: properties that elements, arguments and segments have, as far as reading makes them;
  `ReadRules.ofSource` says that the tree of a text has them.
-/

namespace Formula

/-- The numbers `S` are distinct and lie between `k` and `k'`. -/
structure Fresh (k k' : Nat) (S : List Nat) : Prop where
  le : k ≤ k'
  nodup : S.Nodup
  mem : ∀ i ∈ S, k ≤ i ∧ i < k'

namespace Fresh

variable {k k' k'' : Nat} {S T : List Nat}

theorem refl (k : Nat) : Fresh k k [] := ⟨Nat.le_refl k, List.nodup_nil, by simp⟩

theorem append (hS : Fresh k k' S) (hT : Fresh k' k'' T) : Fresh k k'' (S ++ T) where
  le := Nat.le_trans hS.le hT.le
  nodup := by
    refine List.nodup_append.mpr ⟨hS.nodup, hT.nodup, ?_⟩
    rintro i hi _ hj rfl
    have h1 := (hS.mem i hi).2
    have h2 := (hT.mem i hj).1
    omega
  mem i hi := by
    have h1 := hS.le
    have h2 := hT.le
    rcases List.mem_append.mp hi with hi | hi
    · have := hS.mem i hi
      omega
    · have := hT.mem i hi
      omega

/-- The next number is given out for the node that holds the others. -/
theorem node (h : Fresh k k' S) : Fresh k (k' + 1) (k' :: S) where
  le := Nat.le_succ_of_le h.le
  nodup := by
    refine List.nodup_cons.mpr ⟨fun hk => ?_, h.nodup⟩
    have := (h.mem k' hk).2
    omega
  mem i hi := by
    have hle := h.le
    rcases List.mem_cons.mp hi with rfl | hi
    · omega
    · have := h.mem i hi
      omega

theorem leaf (k : Nat) : Fresh k (k + 1) [k] := (refl k).node

end Fresh

/-- Whatever is read has `P`, and is numbered on the way; `slots` are the numbers in it. -/
def Yields {α : Type} (slots : α → List Nat) (P : α → Prop) (read : Reading α) : Prop :=
  ∀ r a r', read r = .ok (a, r') → Fresh r.nodes r'.nodes (slots a) ∧ P a

/-- Whatever is found has `P`, and is numbered on the way. -/
def ProbeYields {α : Type} (slots : α → List Nat) (P : α → Prop) (read : Probing α) : Prop :=
  ∀ r a r', read r = .ok (some (a, r')) → Fresh r.nodes r'.nodes (slots a) ∧ P a

theorem many_yields {α : Type} {slots : α → List Nat} {P : α → Prop} {step : Probing α}
    (h : ProbeYields slots P step) :
    Yields (List.flatMap slots) (fun as => ∀ a ∈ as, P a) (many Reader.size step) := by
  intro r as r' hr
  fun_induction many Reader.size step r generalizing as r' with
  | case1 => cases hr
  | case2 r hs =>
    cases hr
    exact ⟨.refl _, by simp⟩
  | case3 => cases hr
  | case4 r a t hs hlt as' u hm ih =>
    cases hr
    obtain ⟨hfirst, ha⟩ := h r a t hs
    obtain ⟨hmore, has⟩ := ih _ _ hm
    exact ⟨hfirst.append hmore, by simpa using ⟨ha, has⟩⟩
  | case5 r a t hs hlt =>
    cases hr
    simpa using h r a t hs

theorem flatMap_slots (ns : List Node) : ns.flatMap Node.slots = Node.slotsAll ns := by
  induction ns with
  | nil => rfl
  | cons n ns ih => simp [Node.slotsAll, ih]

/-- The numbers of a segment and of the nodes of its arguments. -/
def segmentSlots (segment : Segment Node) : List Nat :=
  segment.mark.slot :: Node.slotsAll segment.args

private theorem flatMap_segmentSlots (segments : List (Segment Node)) :
    segments.flatMap segmentSlots = Node.slotsOfSegments segments := by
  induction segments with
  | nil => rfl
  | cons s rest ih => simp [Node.slotsOfSegments_cons, segmentSlots, ih]

private theorem slotsOfSegments_flatten (parts : List (List (Segment Node))) :
    parts.flatMap Node.slotsOfSegments = Node.slotsOfSegments parts.flatten := by
  induction parts with
  | nil => rfl
  | cons part parts ih => simp [Node.slotsOfSegments_append, ih]

/-! ## Literals -/

/-- The values that are written as literals: among decimals those that were brought into range, and
neither arrays nor objects. -/
def Value.IsLiteral : Value → Prop
  | .decimal d => ∃ e : Decimal, e.fit? = .ok (some d)
  | .array _ | .object .. => False
  | _ => True

theorem isLiteral_of_readString {c after : Cursor} {v : Value} (h : readString c = .ok (v, after)) :
    v.IsLiteral := by
  unfold readString at h
  split at h
  · cases h
  · cases h
    trivial

/-- The values that numerals stand for. -/
def Value.IsNumberLiteral (v : Value) : Prop := v.IsLiteral ∧ v.kind?.isSome

theorem isNumberLiteral_of_integerLiteral {n : Nat} {suffix : Option Suffix} {v : Value}
    (h : integerLiteral n suffix = some v) : v.IsNumberLiteral := by
  unfold integerLiteral at h
  split at h
  case h_4 => cases h
  all_goals
    obtain ⟨k, -, rfl⟩ := Option.map_eq_some_iff.mp h
    exact ⟨trivial, rfl⟩

theorem isNumberLiteral_of_decimalLiteral {digits places : Nat} {exponent : Int} {fractional : Bool}
    {suffix : Option Suffix} {v : Value}
    (h : decimalLiteral digits places exponent fractional suffix = .ok (some v)) :
    v.IsNumberLiteral := by
  unfold decimalLiteral at h
  split at h
  · cases h
    exact ⟨trivial, rfl⟩
  · cases h
    exact ⟨trivial, rfl⟩
  · split at h
    · cases h
    · rename_i e _
      obtain ⟨fitting, he, hv⟩ := Except.map_ok h
      obtain ⟨d, rfl, rfl⟩ := Option.map_eq_some_iff.mp hv
      exact ⟨⟨e, he⟩, rfl⟩
  · have hv := Except.ok.inj h
    split at hv
    · cases hv
      exact ⟨trivial, rfl⟩
    · exact isNumberLiteral_of_integerLiteral hv
  · have hv := Except.ok.inj h
    split at hv
    · cases hv
    · exact isNumberLiteral_of_integerLiteral hv

theorem isNumberLiteral_of_takeNumber {cs : List Char} {v : Value}
    (h : (takeNumber cs).1 = .ok (some v)) : v.IsNumberLiteral := by
  unfold takeNumber at h
  split at h
  · rename_i base isDigit _
    have hradix : (takeRadix base isDigit (cs.drop 2)).1 = some v := Except.ok.inj h
    unfold takeRadix at hradix
    simp only at hradix
    split at hradix
    · cases hradix
    · exact isNumberLiteral_of_integerLiteral hradix
  · unfold takeDecimal at h
    simp only at h
    split at h
    · cases h
    · exact isNumberLiteral_of_decimalLiteral h

theorem isNumberLiteral_of_readNumber {c : Cursor} {v : Value}
    (h : (readNumber c).1 = .ok (.constant v)) : v.IsNumberLiteral := by
  unfold readNumber at h
  obtain ⟨w, hw, hlexeme⟩ := Except.map_ok h
  cases w with
  | none => cases hlexeme
  | some w =>
    simp only at hlexeme
    split at hlexeme
    · cases hlexeme
      exact isNumberLiteral_of_takeNumber hw
    · cases hlexeme

/-! ## Rules -/

/-- Properties of what is read: `item` of the elements of blocks, `arg` of arguments and of the
whole, `segment` of segments. They are kept by all that reading makes, if type arguments have
`types`. -/
structure ReadRules (types : List TypeName → Prop) (item arg : Node → Prop)
    (segment : Segment Node → Prop) : Prop where
  block {mark : Mark} {items : List Node} : items ≠ [] → (∀ n ∈ items, item n) →
    arg (.block mark items)
  parentheses {mark : Mark} {items : List Node} :
    items ≠ [] → (∀ n ∈ items, item n) → item (.block mark items)
  constant (mark : Mark) (v : Value) : v.IsLiteral → item (.constant mark v)
  operator (mark : Mark) (op : Operator) : item (.operator mark op)
  unresolved (mark : Mark) (raw : String) : item (.unresolved mark raw)
  member {generics : List TypeName} {name : String} (mark : Mark) :
    IsName name.toList → types generics → segment (.member mark name generics)
  method {generics : List TypeName} {args : List Node} {name : String} (mark : Mark) :
    IsName name.toList → types generics → (∀ n ∈ args, arg n) →
    segment (.method mark name generics args)
  indexer {args : List Node} (mark : Mark) :
    args ≠ [] → (∀ n ∈ args, arg n) → segment (.indexer mark args)
  /-- A route starts with a name. -/
  route {first : Segment Node} {rest : List (Segment Node)} (mark : Mark) :
    first.isIndexer = false → (∀ s ∈ first :: rest, segment s) →
    item (.route mark .scope (first :: rest))

namespace ReadRules

variable {types : List TypeName → Prop} {item arg : Node → Prop} {segment : Segment Node → Prop}
  {level : Level} (R : ReadRules types item arg segment)

/-! ## Argument lists -/

/-- Elements are read. -/
def YieldsItems (item : Node → Prop) (read : Reading (List Node)) : Prop :=
  Yields Node.slotsAll (fun ns => ∀ n ∈ ns, item n) read

/-- At this level type arguments have `types`, and what is read one level further in are elements,
if the bound allows that level. -/
structure LevelYields (types : List TypeName → Prop) (item : Node → Prop) (level : Level) :
    Prop where
  enter {inner : Reading (List Node)} : level.enter = .ok inner → YieldsItems item inner
  typeArguments {c c' : Cursor} {generics : Option (List TypeName)} :
    level.typeArguments c = .ok (generics, c') → types (generics.getD [])

include R

theorem readArgument {inner : Reading (List Node)} (h : YieldsItems item inner) :
    Yields Node.slots arg (readArgument inner) := by
  intro r n r' hr
  obtain ⟨⟨items, r₁⟩, hi, hr⟩ := Except.bind_ok hr
  simp only at hr
  split at hr
  · cases hr
  · rename_i hne
    cases hr
    obtain ⟨hslots, hitems⟩ := h r items r₁ hi
    exact ⟨hslots.node, R.block (by simpa using hne) hitems⟩

theorem readNextArgument {inner : Reading (List Node)} (h : YieldsItems item inner) :
    ProbeYields Node.slots arg (readNextArgument inner) := by
  intro r n r' hr
  unfold Formula.readNextArgument at hr
  split at hr
  · obtain ⟨⟨n, r₁⟩, hn, he⟩ := Except.map_ok hr
    cases he
    exact R.readArgument h r.skipBlanks.next n r' hn
  · cases hr

theorem readArguments (h : LevelYields types item level) (close : Char) :
    Yields Node.slotsAll (fun ns => ∀ n ∈ ns, arg n) (readArguments level close) := by
  intro r ns r' hr
  obtain ⟨inner, hi, hr⟩ := Except.bind_ok hr
  have hinner := h.enter hi
  simp only at hr
  split at hr
  · cases hr
    exact ⟨.refl _, by simp⟩
  · obtain ⟨⟨first, r₁⟩, h₁, hr⟩ := Except.bind_ok hr
    obtain ⟨⟨more, r₂⟩, h₂, hr⟩ := Except.bind_ok hr
    simp only at hr
    split at hr
    · cases hr
      obtain ⟨hfirst, harg⟩ := R.readArgument hinner _ _ _ h₁
      obtain ⟨hmore, hargs⟩ := many_yields (R.readNextArgument hinner) _ _ _ h₂
      rw [flatMap_slots] at hmore
      exact ⟨hfirst.append hmore, by simpa using ⟨harg, hargs⟩⟩
    · cases hr

/-! ## Routes -/

theorem readIndexer (h : LevelYields types item level) :
    ProbeYields segmentSlots segment (readIndexer level) := by
  intro r s r' hr
  unfold Formula.readIndexer at hr
  split at hr
  · obtain ⟨⟨args, r₁⟩, h₁, hr⟩ := Except.bind_ok hr
    simp only at hr
    split at hr
    · cases hr
    · rename_i hne
      cases hr
      obtain ⟨hslots, hargs⟩ := R.readArguments h ']' _ _ _ h₁
      exact ⟨hslots.node, R.indexer _ (by simpa using hne) hargs⟩
  · cases hr

/-- At a name, a segment that is no indexer is read. -/
theorem readNamed (h : LevelYields types item level) {r r' : Reader} {s : Segment Node} {x : Char}
    (hpeek : r.cursor.peek? = some x) (hx : isNameStart x = true)
    (hr : readNamed level r = .ok (s, r')) :
    Fresh r.nodes r'.nodes (segmentSlots s) ∧ segment s ∧ s.isIndexer = false := by
  have hname := Cursor.isName_span hpeek hx
  rw [← String.toList_ofList (l := (r.cursor.span isNameChar).1)] at hname
  obtain ⟨⟨generics, cursor⟩, h₁, hr⟩ := Except.bind_ok hr
  have htypes := h.typeArguments h₁
  simp only at hr
  split at hr
  · obtain ⟨⟨args, r₁⟩, h₂, hr⟩ := Except.bind_ok hr
    cases hr
    obtain ⟨hslots, hargs⟩ := R.readArguments h ')' _ _ _ h₂
    exact ⟨hslots.node, R.method _ hname htypes hargs, rfl⟩
  · cases hr
    exact ⟨.leaf _, R.member _ hname htypes, rfl⟩

/-- At a name, that name and the indexers behind it are read. -/
theorem readSegments (h : LevelYields types item level) {r r' : Reader}
    {segments : List (Segment Node)} {x : Char} (hpeek : r.cursor.peek? = some x)
    (hx : isNameStart x = true) (hr : readSegments level r = .ok (segments, r')) :
    Fresh r.nodes r'.nodes (Node.slotsOfSegments segments) ∧ (∀ s ∈ segments, segment s) ∧
      ∃ first rest, segments = first :: rest ∧ first.isIndexer = false := by
  obtain ⟨⟨named, r₁⟩, h₁, hr⟩ := Except.bind_ok hr
  obtain ⟨⟨indexers, r₂⟩, h₂, hr⟩ := Except.bind_ok hr
  cases hr
  obtain ⟨hfirst, hnamed, hindexer⟩ := R.readNamed h hpeek hx h₁
  obtain ⟨hmore, hindexers⟩ := many_yields (R.readIndexer h) _ _ _ h₂
  rw [← flatMap_segmentSlots]
  exact ⟨hfirst.append hmore, by simpa using ⟨hnamed, hindexers⟩, named, indexers, rfl, hindexer⟩

theorem readNextSegments (h : LevelYields types item level) :
    ProbeYields Node.slotsOfSegments (fun segments => ∀ s ∈ segments, segment s)
      (readNextSegments level) := by
  intro r segments r' hr
  unfold Formula.readNextSegments at hr
  split at hr
  · rename_i hsees
    obtain ⟨⟨segments, r₁⟩, h₁, he⟩ := Except.map_ok hr
    cases he
    obtain ⟨x, hpeek, hx⟩ := Cursor.name_of_seesDotName hsees
    obtain ⟨hslots, hsegments, -⟩ := R.readSegments h hpeek hx h₁
    exact ⟨hslots, hsegments⟩
  · cases hr

/-- At a name, a route is read. -/
theorem readRoute (h : LevelYields types item level) {r r' : Reader} {n : Node} {x : Char}
    (hpeek : r.cursor.peek? = some x) (hx : isNameStart x = true)
    (hr : readRoute level r = .ok (n, r')) :
    Fresh r.nodes r'.nodes n.slots ∧ item n := by
  obtain ⟨⟨first, r₁⟩, h₁, hr⟩ := Except.bind_ok hr
  obtain ⟨⟨more, r₂⟩, h₂, hr⟩ := Except.bind_ok hr
  cases hr
  obtain ⟨hfirst, hsegments, named, indexers, rfl, hindexer⟩ := R.readSegments h hpeek hx h₁
  obtain ⟨hmore, hothers⟩ := many_yields (R.readNextSegments h) _ _ _ h₂
  rw [slotsOfSegments_flatten] at hmore
  have hall := (hfirst.append hmore).node
  rw [← Node.slotsOfSegments_append] at hall
  refine ⟨hall, R.route _ hindexer fun segment hs => ?_⟩
  rcases List.mem_append.mp (show segment ∈ (named :: indexers) ++ more.flatten from hs)
    with hs | hs
  · exact hsegments segment hs
  · obtain ⟨part, hpart, hs⟩ := List.mem_flatten.mp hs
    exact hothers part hpart segment hs

/-! ## Elements -/

theorem readParentheses (h : LevelYields types item level) :
    Yields Node.slots item (readParentheses level) := by
  intro r n r' hr
  obtain ⟨inner, hi, hr⟩ := Except.bind_ok hr
  obtain ⟨⟨items, r₁⟩, h₁, hr⟩ := Except.bind_ok hr
  simp only at hr
  split at hr
  · cases hr
  · split at hr
    · cases hr
    · rename_i hne
      cases hr
      obtain ⟨hslots, hitems⟩ := h.enter hi _ _ _ h₁
      exact ⟨hslots.node, R.parentheses (by simpa using hne) hitems⟩

theorem readElementAt (h : LevelYields types item level) {r r' : Reader} {n : Node} {c : Char}
    (hpeek : r.cursor.peek? = some c) (hr : readElementAt level c r = .ok (n, r')) :
    Fresh r.nodes r'.nodes n.slots ∧ item n := by
  unfold Formula.readElementAt at hr
  simp only at hr
  split at hr
  · exact R.readParentheses h r n r' hr
  · split at hr
    · split at hr
      · cases hr
      · cases hr
        rename_i hstring
        exact ⟨.leaf _, R.constant _ _ (isLiteral_of_readString hstring)⟩
    · split at hr
      · split at hr
        · cases hr
        · rename_i lexeme hnumber
          cases hr
          cases lexeme with
          | constant v =>
            exact ⟨.leaf _, R.constant _ _ (isNumberLiteral_of_readNumber hnumber).1⟩
          | unresolved raw => exact ⟨.leaf _, R.unresolved _ _⟩
      · split at hr
        · rename_i hx
          exact R.readRoute h hpeek hx hr
        · split at hr
          · cases hr
            exact ⟨.leaf _, R.operator _ _⟩
          · cases hr
            exact ⟨.leaf _, R.unresolved _ _⟩

theorem readElement (h : LevelYields types item level) :
    ProbeYields Node.slots item (readElement level) := by
  intro r n r' hr
  unfold Formula.readElement at hr
  simp only at hr
  split at hr
  · cases hr
  · rename_i hpeek
    split at hr
    · cases hr
    · obtain ⟨⟨n, r₁⟩, h₁, he⟩ := Except.map_ok hr
      cases he
      exact R.readElementAt (r := r.skipBlanks) h hpeek h₁

theorem readElements {limit room : Nat}
    (htypes : ∀ room' ≤ room, ∀ c generics c',
      typeArguments? limit room' c = .ok (generics, c') → types (generics.getD [])) :
    YieldsItems item (readElements limit room) := by
  induction room with
  | zero =>
    intro r ns r' hr
    have hlevel : LevelYields types item
        ⟨typeArguments? limit 0, .error (.limitExceeded .nestingDepth limit)⟩ :=
      ⟨fun hi => (by cases hi), fun h => htypes 0 (Nat.le_refl 0) _ _ _ h⟩
    rw [← flatMap_slots]
    exact many_yields (R.readElement hlevel) r ns r' hr
  | succ room ih =>
    intro r ns r' hr
    have hinner := ih fun room' hle => htypes room' (Nat.le_succ_of_le hle)
    have hlevel : LevelYields types item
        ⟨typeArguments? limit (room + 1), .ok (Formula.readElements limit room)⟩ :=
      ⟨fun hi => (by cases hi; exact hinner), fun h => htypes _ (Nat.le_refl _) _ _ _ h⟩
    rw [← flatMap_slots]
    exact many_yields (R.readElement hlevel) r ns r' hr

/-- **The tree of a text** has the properties, if the type arguments that are read have `types`, and
its nodes have distinct numbers below their count. -/
theorem ofSource {limit : Nat} {source : String} {root : Node} {nodes : Nat}
    (htypes : ∀ room ≤ limit, ∀ c generics c',
      typeArguments? limit room c = .ok (generics, c') → types (generics.getD []))
    (h : Node.ofSource limit source = .ok (root, nodes)) : root.Numbered nodes ∧ arg root := by
  obtain ⟨items, r, hread, -, hne, rfl, rfl⟩ := Node.ofSource_ok_iff.mp h
  obtain ⟨hslots, hitems⟩ := R.readElements htypes _ _ _ hread
  have hroot := hslots.node
  exact ⟨⟨hroot.nodup, fun i hi => (hroot.mem i hi).2⟩, R.block hne hitems⟩

end ReadRules

/-! ## Trees without casts -/

/-- An element of a block without casts. -/
def PlainItem (n : Node) : Prop := n.isOperator = true ∨ n.Plain

/-- No casts are read, and operators as elements of blocks only. -/
theorem readRules_plain :
    ReadRules (fun _ => True) PlainItem Node.Plain fun s => ∀ n ∈ s.args, n.Plain where
  block _ h := Node.built_block.mpr ⟨trivial, h⟩
  parentheses _ h := .inr (Node.built_block.mpr ⟨trivial, h⟩)
  constant _ _ _ := .inr trivial
  operator _ _ := .inl rfl
  unresolved _ _ := .inr trivial
  member _ _ _ := fun n hn => by cases hn
  method _ _ _ h := h
  indexer _ _ h := h
  route _ _ h := .inr (Node.built_route.mpr h)

/-- **A text is read to a tree without casts, whose nodes have distinct numbers** below their
count. -/
theorem Node.ofSource_yields {limit : Nat} {source : String} {root : Node} {nodes : Nat}
    (h : Node.ofSource limit source = .ok (root, nodes)) : root.Numbered nodes ∧ root.Plain :=
  readRules_plain.ofSource (fun _ _ _ _ _ _ => trivial) h

end Formula
