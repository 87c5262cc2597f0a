import Formula.Node.Arrange
import Formula.Proofs.Numbering
import Mathlib.Data.List.Nodup
import Mathlib.Data.List.Pairwise
import Mathlib.Logic.Relation

/-!
# Tables of nodes

A tree can be kept in a table: nodes and segments are cells, and a cell lists the numbers of its
parts. Nothing in a table rules out that a cell is shared, that parts lead in a circle, or that a
number has no cell.

* `NodeTable.Holds t n`: every node of the tree `n` is the cell of its number.
* `NodeTable.Holds.isTree`: a table that holds a tree of distinct numbers is a tree below its root.
* `Node.table`: a table that holds a given tree.
-/

namespace Formula

/-! ## Cells -/

/-- What a cell is. Parts are numbers of cells; the type of a cast is a cell of its own. -/
inductive Entry where
  | constant (value : Value)
  | operator (op : Operator)
  | convert (target : TypeName)
  | unresolved (raw : String)
  | member (name : String) (generics : List TypeName)
  | method (name : String) (generics : List TypeName) (args : List Nat)
  | indexer (args : List Nat)
  | route (head : RouteHead) (segments : List Nat)
  | block (items : List Nat)

/-- The numbers of the cells that an entry is made of. -/
def Entry.parts : Entry → List Nat
  | .method _ _ args | .indexer args => args
  | .route _ segments => segments
  | .block items => items
  | _ => []

/-- Whether an entry is of a kind that has no parts. -/
def Entry.isLeaf : Entry → Bool
  | .method .. | .indexer _ | .route .. | .block _ => false
  | _ => true

/-- An entry, and the offset it was read at. -/
structure Cell where
  entry : Entry
  offset : Nat

/-- A number with its cell. -/
structure Item where
  id : Nat
  cell : Cell

namespace Item

/-- The operator of an item that is one. -/
def operator? (item : Item) : Option Operator :=
  match item.cell.entry with
  | .operator op => some op
  | _ => none

def isOperator (item : Item) : Bool := item.operator?.isSome

def isBlock (item : Item) : Bool :=
  match item.cell.entry with
  | .block _ => true
  | _ => false

end Item

/-- Nodes by their numbers. -/
structure NodeTable where
  cells : Array Cell

namespace NodeTable

variable {t t' t'' : NodeTable} {id i : Nat} {cell : Cell}

def size (t : NodeTable) : Nat := t.cells.size

def get? (t : NodeTable) (id : Nat) : Option Cell := t.cells[id]?

/-- A new cell, under the next number. -/
def add (t : NodeTable) (cell : Cell) : NodeTable := ⟨t.cells.push cell⟩

/-- Another cell in place of one that is there. -/
def put (t : NodeTable) (id : Nat) (cell : Cell) : NodeTable := ⟨t.cells.setIfInBounds id cell⟩

@[simp]
theorem size_add : (t.add cell).size = t.size + 1 := Array.size_push _

@[simp]
theorem size_put : (t.put id cell).size = t.size := Array.size_setIfInBounds

theorem lt_size_of_get? (h : t.get? i = some cell) : i < t.size :=
  (Array.getElem?_eq_some_iff.mp h).choose

@[simp]
theorem get?_add_self : (t.add cell).get? t.size = some cell := Array.getElem?_push_size

theorem get?_add_of_get? {old : Cell} (h : t.get? i = some old) :
    (t.add cell).get? i = some old := by
  have hi := lt_size_of_get? h
  rw [get?, add, Array.getElem?_push_lt hi, ← Array.getElem?_eq_getElem hi]
  exact h

/-- New cells, under the next numbers. -/
def addAll (t : NodeTable) (cells : List Cell) : NodeTable := cells.foldl add t

theorem get?_addAll_of_get? {old : Cell} (h : t.get? i = some old) (cells : List Cell) :
    (t.addAll cells).get? i = some old := by
  induction cells generalizing t with
  | nil => exact h
  | cons cell cells ih => exact ih (get?_add_of_get? h)

theorem get?_addAll {cells : List Cell} {k : Nat} (h : cells[k]? = some cell) :
    (t.addAll cells).get? (t.size + k) = some cell := by
  induction cells generalizing t k with
  | nil => cases h
  | cons first cells ih =>
    cases k with
    | zero =>
      cases h
      exact get?_addAll_of_get? get?_add_self cells
    | succ k =>
      have hnext : t.size + (k + 1) = (t.add first).size + k := by
        rw [size_add]
        omega
      rw [hnext]
      exact ih h

theorem get?_put_self (h : id < t.size) : (t.put id cell).get? id = some cell :=
  Array.getElem?_setIfInBounds_self_of_lt h

theorem get?_put_of_ne (h : id ≠ i) : (t.put id cell).get? i = t.get? i :=
  Array.getElem?_setIfInBounds_ne h

theorem put_of_get? (h : t.get? id = some cell) : t.put id cell = t := by
  refine congrArg NodeTable.mk (Array.ext_getElem? fun i => ?_)
  by_cases hi : id = i
  · subst hi
    exact (get?_put_self (lt_size_of_get? h)).trans h.symm
  · exact get?_put_of_ne hi

/-! ## Growth and frames -/

/-- What is in the table stays in it. -/
def Extends (t t' : NodeTable) : Prop := ∀ i cell, t.get? i = some cell → t'.get? i = some cell

/-- No cell goes, and the cells of the table stay as they are, but for those of the numbers `S`. -/
structure SameBut (S : List Nat) (t t' : NodeTable) : Prop where
  size_le : t.size ≤ t'.size
  get? (i : Nat) : i < t.size → i ∉ S → t'.get? i = t.get? i

theorem Extends.refl (t : NodeTable) : t.Extends t := fun _ _ h => h

theorem Extends.trans (h : t.Extends t') (h' : t'.Extends t'') : t.Extends t'' :=
  fun i cell hi => h' i cell (h i cell hi)

theorem extends_add (t : NodeTable) (cell : Cell) : t.Extends (t.add cell) :=
  fun _ _ h => get?_add_of_get? h

theorem Extends.size_le (h : t.Extends t') : t.size ≤ t'.size := by
  rcases Nat.eq_zero_or_pos t.size with hzero | hpos
  · omega
  · have hlast : t.size - 1 < t.cells.size := Nat.sub_lt hpos Nat.one_pos
    have := lt_size_of_get? (h _ _ (Array.getElem?_eq_getElem hlast))
    omega

theorem Extends.sameBut (h : t.Extends t') (S : List Nat) : t.SameBut S t' := by
  refine ⟨h.size_le, fun i hi _ => ?_⟩
  have hcell : t.get? i = some t.cells[i] := Array.getElem?_eq_getElem hi
  rw [hcell]
  exact h i _ hcell

theorem SameBut.refl (S : List Nat) (t : NodeTable) : SameBut S t t := (Extends.refl t).sameBut S

/-- A second change is of the same cells, or of new ones. -/
theorem SameBut.trans {S S' : List Nat} (h : t.SameBut S t') (h' : t'.SameBut S' t'')
    (hS : ∀ i ∈ S', i ∈ S ∨ t.size ≤ i) : t.SameBut S t'' := by
  refine ⟨Nat.le_trans h.size_le h'.size_le, fun i hi hS' => ?_⟩
  have hnot : i ∉ S' := fun hmem => (hS i hmem).elim hS' (Nat.not_le.mpr hi)
  rw [h'.get? i (Nat.lt_of_lt_of_le hi h.size_le) hnot, h.get? i hi hS']

theorem SameBut.mono {S S' : List Nat} (h : t.SameBut S t') (hS : ∀ i ∈ S, i ∈ S' ∨ t.size ≤ i) :
    t.SameBut S' t' :=
  (SameBut.refl S' t).trans h hS

theorem sameBut_put {S : List Nat} (h : id ∈ S) : t.SameBut S (t.put id cell) := by
  refine ⟨Nat.le_of_eq t.size_put.symm, fun i _ hi => get?_put_of_ne ?_⟩
  rintro rfl
  exact hi h

end NodeTable

/-! ## Trees in tables -/

/-- The cell of a segment. -/
def Segment.cell : Segment Node → Cell
  | .member mark name generics => ⟨.member name generics, mark.offset⟩
  | .method mark name generics args => ⟨.method name generics (args.map (·.mark.slot)), mark.offset⟩
  | .indexer mark args => ⟨.indexer (args.map (·.mark.slot)), mark.offset⟩

/-- The cell of an operator of a cast. -/
def signCell (sign : Mark × Operator) : Cell := ⟨.operator sign.2, sign.1.offset⟩

namespace Node

/-- The cell of a node; a cast is a block of its type, the operators and the operand. -/
def cell : Node → Cell
  | .constant mark v => ⟨.constant v, mark.offset⟩
  | .operator mark op => ⟨.operator op, mark.offset⟩
  | .unresolved mark raw => ⟨.unresolved raw, mark.offset⟩
  | .cast mark typeMark _ signs operand =>
    ⟨.block (typeMark.slot :: (signs.map (·.1.slot) ++ [operand.mark.slot])), mark.offset⟩
  | .route mark head segments => ⟨.route head (segments.map (·.mark.slot)), mark.offset⟩
  | .block mark items => ⟨.block (items.map (·.mark.slot)), mark.offset⟩

/-- The number of a node with its cell. -/
def item (n : Node) : Item := ⟨n.mark.slot, n.cell⟩

@[simp]
theorem operator?_item (n : Node) : n.item.operator? = n.operator? := by
  cases n <;> rfl

@[simp]
theorem isOperator_item (n : Node) : n.item.isOperator = n.isOperator := by
  rw [Item.isOperator, operator?_item, isOperator]

@[simp]
theorem offset_cell (n : Node) : n.cell.offset = n.offset := by
  cases n <;> rfl

@[simp]
theorem isBlock_item (n : Node) : n.item.isBlock = n.isBlock := by
  cases n <;> rfl

mutual

/-- The cells of a tree by their numbers, in the order of the text. -/
def cells : Node → List (Nat × Cell)
  | .constant mark v => [(mark.slot, ⟨.constant v, mark.offset⟩)]
  | .operator mark op => [(mark.slot, ⟨.operator op, mark.offset⟩)]
  | .unresolved mark raw => [(mark.slot, ⟨.unresolved raw, mark.offset⟩)]
  | .cast mark typeMark target signs operand =>
    (mark.slot, (Node.cast mark typeMark target signs operand).cell) ::
      (typeMark.slot, ⟨.convert target, typeMark.offset⟩) ::
        (signs.map (fun sign => (sign.1.slot, signCell sign)) ++ cells operand)
  | .route mark head segments =>
    (mark.slot, (Node.route mark head segments).cell) :: cellsOfSegments segments
  | .block mark items => (mark.slot, (Node.block mark items).cell) :: cellsAll items

/-- The cells of a list of trees. -/
def cellsAll : List Node → List (Nat × Cell)
  | [] => []
  | n :: ns => cells n ++ cellsAll ns

/-- The cells of segments and of their arguments. -/
def cellsOfSegments : List (Segment Node) → List (Nat × Cell)
  | [] => []
  | .member mark name generics :: rest =>
    (mark.slot, (Segment.member mark name generics).cell) :: cellsOfSegments rest
  | .method mark name generics args :: rest =>
    (mark.slot, (Segment.method mark name generics args).cell) ::
      (cellsAll args ++ cellsOfSegments rest)
  | .indexer mark args :: rest =>
    (mark.slot, (Segment.indexer mark args).cell) :: (cellsAll args ++ cellsOfSegments rest)

end

theorem cellsAll_eq (ns : List Node) : cellsAll ns = ns.flatMap cells := by
  induction ns with
  | nil => rfl
  | cons n ns ih => rw [cellsAll, ih, List.flatMap_cons]

theorem cellsOfSegments_cons (segment : Segment Node) (rest : List (Segment Node)) :
    cellsOfSegments (segment :: rest) =
      (segment.mark.slot, segment.cell) :: (cellsAll segment.args ++ cellsOfSegments rest) := by
  cases segment <;> simp [cellsOfSegments, cellsAll, Segment.mark, Segment.args]

end Node

namespace NodeTable

variable {t t' : NodeTable} {n : Node}

/-- The numbers have the cells that they are listed with. -/
def Has (t : NodeTable) (cells : List (Nat × Cell)) : Prop := ∀ e ∈ cells, t.get? e.1 = some e.2

/-- Every node of the tree is the cell of its number. -/
def Holds (t : NodeTable) (n : Node) : Prop := t.Has n.cells

theorem has_cons {e : Nat × Cell} {cells : List (Nat × Cell)} :
    t.Has (e :: cells) ↔ t.get? e.1 = some e.2 ∧ t.Has cells := List.forall_mem_cons

theorem has_append {cells cells' : List (Nat × Cell)} :
    t.Has (cells ++ cells') ↔ t.Has cells ∧ t.Has cells' := List.forall_mem_append

/-- Cells stay in the table where those of their numbers stay. -/
theorem Has.of_sameBut {cells : List (Nat × Cell)} {S : List Nat} (h : t.Has cells)
    (hsame : t.SameBut S t') (hS : ∀ i ∈ cells.map Prod.fst, i ∉ S) : t'.Has cells := by
  intro e he
  rw [hsame.get? e.1 (lt_size_of_get? (h e he)) (hS e.1 (List.mem_map_of_mem he))]
  exact h e he

theorem has_cellsAll {ns : List Node} : t.Has (Node.cellsAll ns) ↔ ∀ n ∈ ns, t.Holds n := by
  rw [Has, Node.cellsAll_eq, List.forall_mem_flatMap]
  rfl

theorem holds_block {mark : Mark} {items : List Node} : t.Holds (.block mark items) ↔
    t.get? mark.slot = some (Node.block mark items).cell ∧ ∀ n ∈ items, t.Holds n := by
  rw [Holds, Node.cells, has_cons, has_cellsAll]

theorem holds_cast {mark typeMark : Mark} {target : TypeName} {signs : List (Mark × Operator)}
    {operand : Node} :
    t.Holds (.cast mark typeMark target signs operand) ↔
      t.get? mark.slot = some (Node.cast mark typeMark target signs operand).cell ∧
      t.get? typeMark.slot = some ⟨.convert target, typeMark.offset⟩ ∧
      (∀ sign ∈ signs, t.get? sign.1.slot = some (signCell sign)) ∧ t.Holds operand := by
  simp only [Holds, Has, Node.cells, List.forall_mem_cons, List.forall_mem_append,
    List.forall_mem_map]

theorem has_cellsOfSegments {segments : List (Segment Node)} :
    t.Has (Node.cellsOfSegments segments) ↔
    ∀ segment ∈ segments, t.get? segment.mark.slot = some segment.cell ∧
      ∀ n ∈ segment.args, t.Holds n := by
  induction segments with
  | nil => simp [Has, Node.cellsOfSegments]
  | cons segment rest ih =>
    rw [Node.cellsOfSegments_cons, has_cons, has_append, has_cellsAll, ih,
      List.forall_mem_cons, and_assoc]

theorem holds_route {mark : Mark} {head : RouteHead} {segments : List (Segment Node)} :
    t.Holds (.route mark head segments) ↔
      t.get? mark.slot = some (Node.route mark head segments).cell ∧
      ∀ segment ∈ segments, t.get? segment.mark.slot = some segment.cell ∧
        ∀ n ∈ segment.args, t.Holds n := by
  rw [Holds, Node.cells, has_cons, has_cellsOfSegments]

/-- A tree is held at the number of its root. -/
theorem Holds.get? (h : t.Holds n) : t.get? n.mark.slot = some n.cell := by
  cases n with
  | block => exact (holds_block.mp h).1
  | cast => exact (holds_cast.mp h).1
  | route => exact (holds_route.mp h).1
  | constant | operator | unresolved =>
    rw [Holds, Has, Node.cells, List.forall_mem_singleton] at h
    exact h

theorem Holds.extend (h : t.Holds n) (ht : t.Extends t') : t'.Holds n := fun e he => ht _ _ (h e he)

end NodeTable

namespace Node

/-! ## The numbers of cells -/

theorem cellsAll_slots {ns : List Node} (h : ∀ n ∈ ns, n.cells.map Prod.fst = n.slots) :
    (cellsAll ns).map Prod.fst = slotsAll ns := by
  induction ns with
  | nil => rfl
  | cons n ns ih =>
    rw [cellsAll, List.map_append, h n List.mem_cons_self,
      ih fun n hn => h n (List.mem_cons_of_mem _ hn), slotsAll]

theorem cellsOfSegments_slots {segments : List (Segment Node)}
    (h : ∀ segment ∈ segments, ∀ n ∈ segment.args, n.cells.map Prod.fst = n.slots) :
    (cellsOfSegments segments).map Prod.fst = slotsOfSegments segments := by
  induction segments with
  | nil => rfl
  | cons segment rest ih =>
    obtain ⟨hsegment, hrest⟩ := List.forall_mem_cons.mp h
    rw [cellsOfSegments_cons, slotsOfSegments_cons, List.map_cons, List.map_append,
      cellsAll_slots hsegment, ih hrest]

theorem cells_slots (n : Node) : n.cells.map Prod.fst = n.slots := by
  induction n using Node.induct with
  | constant | operator | unresolved => simp [cells, slots]
  | cast mark typeMark target signs operand ih => simp [cells, slots, ih, Function.comp_def]
  | block mark items ih => rw [cells, slots, List.map_cons, cellsAll_slots ih]
  | route mark head segments ih => rw [cells, slots, List.map_cons, cellsOfSegments_slots ih]

/-! ## Parts -/

/-- The parts of cells, in their order. -/
def partsOf (cells : List (Nat × Cell)) : List Nat := cells.flatMap (·.2.entry.parts)

theorem partsOf_append (cells cells' : List (Nat × Cell)) :
    partsOf (cells ++ cells') = partsOf cells ++ partsOf cells' :=
  List.flatMap_append

private theorem partsOf_segments_cons (segment : Segment Node) (rest : List (Segment Node)) :
    partsOf (cellsOfSegments (segment :: rest)) =
      (segment.args.map (·.mark.slot) ++ partsOf (cellsAll segment.args)) ++
        partsOf (cellsOfSegments rest) := by
  have hparts : segment.cell.entry.parts = segment.args.map (·.mark.slot) := by
    cases segment <;> rfl
  rw [cellsOfSegments_cons, partsOf, List.flatMap_cons, hparts, List.append_assoc]
  exact congrArg _ (partsOf_append _ _)

theorem parts_perm_slotsAll {ns : List Node}
    (h : ∀ n ∈ ns, (n.mark.slot :: partsOf n.cells).Perm n.slots) :
    (ns.map (·.mark.slot) ++ partsOf (cellsAll ns)).Perm (slotsAll ns) := by
  induction ns with
  | nil => exact .nil
  | cons n ns ih =>
    obtain ⟨hn, hns⟩ := List.forall_mem_cons.mp h
    rw [cellsAll, slotsAll, partsOf_append]
    exact ((List.perm_append_comm_assoc ..).cons _).trans (hn.append (ih hns))

private theorem parts_perm_slotsOfSegments {segments : List (Segment Node)}
    (h : ∀ segment ∈ segments, ∀ n ∈ segment.args, (n.mark.slot :: partsOf n.cells).Perm n.slots) :
    (segments.map (·.mark.slot) ++ partsOf (cellsOfSegments segments)).Perm
      (slotsOfSegments segments) := by
  induction segments with
  | nil => exact .nil
  | cons segment rest ih =>
    obtain ⟨hsegment, hrest⟩ := List.forall_mem_cons.mp h
    rw [partsOf_segments_cons, slotsOfSegments_cons]
    refine ((List.perm_append_comm_assoc ..).trans ?_).cons _
    exact (parts_perm_slotsAll hsegment).append (ih hrest)

/-- Every node but the root is one part of one cell. -/
theorem parts_perm_slots (n : Node) : (n.mark.slot :: partsOf n.cells).Perm n.slots := by
  induction n using Node.induct with
  | constant | operator | unresolved => rw [cells, slots]; exact .refl _
  | block mark items ih =>
    rw [cells, slots]
    exact (parts_perm_slotsAll ih).cons _
  | route mark head segments ih =>
    rw [cells, slots]
    exact (parts_perm_slotsOfSegments ih).cons _
  | cast mark typeMark target signs operand ih =>
    have hsigns : partsOf (signs.map fun sign => (sign.1.slot, signCell sign)) = [] := by
      rw [partsOf, List.flatMap_map]
      exact List.flatMap_eq_nil_iff.mpr fun sign _ => rfl
    rw [cells, slots]
    refine List.Perm.cons _ (.cons _ ?_)
    show (signs.map (·.1.slot) ++ [operand.mark.slot] ++ partsOf (_ ++ operand.cells)).Perm _
    rw [partsOf_append, hsigns, List.nil_append, List.append_assoc]
    exact ih.append_left _

end Node

namespace NodeTable

/-! ## Tables that are trees -/

/-- The cell `j` is a part of the cell `i`. -/
def Links (t : NodeTable) (i j : Nat) : Prop := ∃ cell, t.get? i = some cell ∧ j ∈ cell.entry.parts

/-- The parts of a cell lead to `i`. -/
def Reached (t : NodeTable) (root i : Nat) : Prop := Relation.ReflTransGen t.Links root i

/-- Below the root the table is a tree: every number that is reached has a cell, and is a part of
one cell only and in one place only; and parts never lead in a circle. -/
structure IsTree (t : NodeTable) (root : Nat) : Prop where
  held {i : Nat} : t.Reached root i → ∃ cell, t.get? i = some cell
  once {i : Nat} {cell : Cell} : t.Reached root i → t.get? i = some cell → cell.entry.parts.Nodup
  one_parent {i i' j : Nat} : t.Reached root i → t.Reached root i' → t.Links i j →
    t.Links i' j → i = i'
  acyclic {i : Nat} : t.Reached root i → ¬ Relation.TransGen t.Links i i

variable {t : NodeTable} {n : Node} {i : Nat}

theorem mem_partsOf {j : Nat} {cell : Cell} (hcell : (i, cell) ∈ n.cells)
    (hj : j ∈ cell.entry.parts) :
    j ∈ Node.partsOf n.cells := List.mem_flatMap.mpr ⟨_, hcell, hj⟩

/-- What is reached from the root of a tree is a cell of it. -/
theorem Holds.cell (h : t.Holds n) (hi : t.Reached n.mark.slot i) :
    ∃ cell, (i, cell) ∈ n.cells ∧ t.get? i = some cell := by
  suffices hslot : i ∈ n.slots by
    rw [← Node.cells_slots, List.mem_map] at hslot
    obtain ⟨e, he, rfl⟩ := hslot
    exact ⟨e.2, he, h e he⟩
  induction hi with
  | refl => exact n.parts_perm_slots.subset List.mem_cons_self
  | @tail k j _ hlink ih =>
    rw [← Node.cells_slots, List.mem_map] at ih
    obtain ⟨e, he, rfl⟩ := ih
    obtain ⟨cell, hcell, hj⟩ := hlink
    cases (h e he).symm.trans hcell
    exact n.parts_perm_slots.subset (List.mem_cons_of_mem _ (mem_partsOf he hj))

/-- Two cells of the tree with a part in common are one. -/
theorem Holds.one_parent (h : t.Holds n) (hn : (Node.partsOf n.cells).Nodup) {i' j : Nat}
    (hi : t.Reached n.mark.slot i) (hi' : t.Reached n.mark.slot i') (hlink : t.Links i j)
    (hlink' : t.Links i' j) : i = i' := by
  obtain ⟨cell, hmem, hcell⟩ := h.cell hi
  obtain ⟨cell', hmem', hcell'⟩ := h.cell hi'
  obtain ⟨_, hc, hj⟩ := hlink
  obtain ⟨_, hc', hj'⟩ := hlink'
  cases hcell.symm.trans hc
  cases hcell'.symm.trans hc'
  have hsymm : Std.Symm (Function.onFun List.Disjoint fun e : Nat × Cell => e.2.entry.parts) :=
    ⟨fun _ _ h _ hi hj => h hj hi⟩
  by_contra hne
  exact (List.nodup_flatMap.mp hn).2.forall hmem hmem' (fun he => hne (congrArg Prod.fst he)) hj hj'

/-- **A table that holds a tree is one**, where the numbers of the tree are distinct. -/
theorem Holds.isTree (h : t.Holds n) (hn : n.slots.Nodup) : t.IsTree n.mark.slot := by
  obtain ⟨hroot, hparts⟩ := List.nodup_cons.mp (n.parts_perm_slots.nodup_iff.mpr hn)
  refine ⟨fun hi => ?_, fun hi hget => ?_, h.one_parent hparts, fun hi => ?_⟩
  · obtain ⟨cell, -, hcell⟩ := h.cell hi
    exact ⟨cell, hcell⟩
  · obtain ⟨cell, hmem, hcell⟩ := h.cell hi
    cases hcell.symm.trans hget
    exact (List.nodup_flatMap.mp hparts).1 _ hmem
  · -- a circle would go through all parents, and the root has none
    induction hi with
    | refl =>
      intro hcircle
      obtain ⟨p, hp, cell', hcell', hj⟩ := Relation.TransGen.tail'_iff.mp hcircle
      obtain ⟨cell, hmem, hcell⟩ := h.cell hp
      cases hcell.symm.trans hcell'
      exact hroot (mem_partsOf hmem hj)
    | @tail parent i hreached hlink ih =>
      intro hcircle
      obtain ⟨p, hp, hlink'⟩ := Relation.TransGen.tail'_iff.mp hcircle
      have hsame := h.one_parent hparts ((hreached.tail hlink).trans hp) hreached hlink' hlink
      exact ih (hsame ▸ .head' (hsame ▸ hlink) hp)

end NodeTable

/-! ## The table of a tree -/

instance : Inhabited Cell := ⟨⟨.block [], 0⟩⟩

/-- A table of `size` cells with those of the tree. -/
def Node.table (size : Nat) (n : Node) : NodeTable :=
  ⟨Array.ofFn fun i : Fin size => ((n.cells.find? (·.1 == i.val)).getD default).2⟩

theorem Node.size_table (size : Nat) (n : Node) : (n.table size).size = size := Array.size_ofFn

/-- A tree of distinct numbers is held by its table. -/
theorem Node.Numbered.holds_table {n : Node} {k : Nat} (h : n.Numbered k) :
    (n.table k).Holds n := by
  intro e he
  have hi : e.1 ∈ n.slots := cells_slots n ▸ List.mem_map_of_mem he
  have hfind : n.cells.find? (·.1 == e.1) = some e := by
    obtain ⟨e', hfind⟩ : ∃ e', n.cells.find? (·.1 == e.1) = some e' :=
      Option.isSome_iff_exists.mp (List.find?_isSome.mpr ⟨e, he, beq_self_eq_true e.1⟩)
    have hnodup : (n.cells.map Prod.fst).Nodup := cells_slots n ▸ h.1
    have hfst : e'.1 = e.1 := by simpa using List.find?_some hfind
    rw [hfind, List.inj_on_of_nodup_map hnodup (List.mem_of_find?_eq_some hfind) he hfst]
  rw [NodeTable.get?, table, Array.getElem?_ofFn, dif_pos (h.2 _ hi), hfind, Option.getD_some]

end Formula
