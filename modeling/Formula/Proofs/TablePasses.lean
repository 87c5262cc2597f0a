import Formula.Binding
import Formula.Proofs.NodeTable
import Formula.Proofs.Passes

/-!
# The passes over a table

The items of a block are the cells of its parts. The passes are written once more over them: they
read cells by number and add new ones, so that a number without a cell is a fault of its own. Runs
are grouped one at a time, each time from the first item on, until there is none left.

`Mimics t y x Q`: from the table `t` the computation `y` does what `x` does where as many nodes are
made. It only adds cells, as many as `x` makes nodes; it fails where `x` fails, with the same error.

Each pass is shown to mimic the pass over pending nodes: `casts_mimics`, `bars_mimics`,
`group_mimics`.
-/

namespace Formula

/-- Why arranging a table stops: the text has a fault, or a number has no cell. -/
inductive TableFault where
  | build (e : BuildError)
  | dangling (id : Nat)

/-- A computation that reads a table and adds to it. -/
abbrev Tabling := StateT NodeTable (Except TableFault)

namespace Tabling

/-- The cell of a number. -/
def fetch (id : Nat) : Tabling Item := fun t =>
  match t.get? id with
  | some cell => .ok (⟨id, cell⟩, t)
  | none => .error (.dangling id)

/-- A new cell. -/
def make (entry : Entry) (offset : Nat) : Tabling Item := fun t =>
  .ok (⟨t.size, ⟨entry, offset⟩⟩, t.add ⟨entry, offset⟩)

/-- Another cell for a number. -/
def put (id : Nat) (cell : Cell) : Tabling Unit := fun t => .ok ((), t.put id cell)

/-- Stops with a fault of the text. -/
def fail {α : Type} (e : BuildError) : Tabling α := throw (.build e)

/-! ## Casts -/

/-- The names of segments that are all names, with the type arguments of the last one. -/
def dottedName : List Item → Option (List String × List TypeName)
  | [] => some ([], [])
  | item :: rest =>
    match item.cell.entry with
    | .member name generics =>
      (dottedName rest).map fun (path, later) =>
        (name :: path, if rest.isEmpty then generics else later)
    | _ => none

/-- The type that an item casts to, if it is a block of one dotted name. -/
def castTarget? (s : Scope) (item : Item) : Tabling (Option TypeName) :=
  match item.cell.entry with
  | .block [inner] => do
    let inner ← fetch inner
    match inner.cell.entry with
    | .route .scope segments =>
      let segments ← segments.mapM fetch
      return (dottedName segments).bind s.namedType?
    | _ => return none
  | _ => return none

/-- Forms casts from the right. -/
def casts (s : Scope) : List Item → Tabling (List Item)
  | [] => pure []
  | item :: rest => do
    let rest ← casts s rest
    match ← castTarget? s item with
    | none => return item :: rest
    | some target =>
      match rest.dropWhile Item.isOperator with
      | [] => fail (.parse item.cell.offset (.castWithoutOperand target))
      | operand :: after =>
        let signs := (rest.takeWhile Item.isOperator).map Item.id
        let convert ← make (.convert target) item.cell.offset
        let block ← make (.block (convert.id :: (signs ++ [operand.id]))) item.cell.offset
        return block :: after

/-! ## Bars -/

/-- The call of `System.Math.Abs` on a block of the items. -/
def absCall (offset : Nat) (inner : List Item) : Tabling Item := do
  let block ← make (.block (inner.map Item.id)) offset
  let system ← make (.member "System" []) offset
  let math ← make (.member "Math" []) offset
  let abs ← make (.method "Abs" [] [block.id]) offset
  make (.route .type [system.id, math.id, abs.id]) offset

/-- Whether a bar behind these items opens a span. -/
def opens : List Item → Bool
  | [] => true
  | item :: _ => item.isOperator

/-- Replaces spans between bars; `spans` and `before` have the last item first. -/
def bars (s : Scope) (depth : Nat) (spans : List (Nat × List Item)) (before : List Item) :
    List Item → Tabling (List Item)
  | [] =>
    match spans with
    | [] => return before.reverse
    | (offset, _) :: _ => fail (.parse offset .unclosedBar)
  | item :: rest =>
    if item.operator? = some .bar then
      if opens before then
        if s.limit ≤ depth + spans.length then fail s.tooDeep
        else bars s depth ((item.cell.offset, before) :: spans) [] rest
      else
        match spans with
        | [] => fail (.parse item.cell.offset .strayBar)
        | (offset, outer) :: spans => do
          let call ← absCall offset before.reverse
          bars s depth spans (call :: outer) rest
    else bars s depth spans (item :: before) rest

/-! ## Products -/

/-- The factors that follow an operand, and what stands behind them. -/
def factors : List Item → List Item × List Item
  | op :: operand :: rest =>
    if op.operator?.any Operator.isMultiplicative && !operand.isOperator then
      (op :: operand :: (factors rest).1, (factors rest).2)
    else ([], op :: operand :: rest)
  | items => ([], items)

/-- A run of factors, and the items on its sides. -/
structure Run where
  before : List Item
  first : Item
  more : List Item
  after : List Item

/-- The first run of more than one item. -/
def firstRun? : List Item → Option Run
  | [] => none
  | item :: rest =>
    if item.isOperator || (factors rest).1.isEmpty then
      (firstRun? rest).map fun run => { run with before := item :: run.before }
    else some ⟨[], item, (factors rest).1, (factors rest).2⟩

private theorem factors_append (items : List Item) :
    (factors items).1 ++ (factors items).2 = items := by
  fun_induction factors items with
  | case1 op operand rest _ ih => simp [ih]
  | case2 op operand rest _ => rfl
  | case3 items _ => rfl

private theorem firstRun?_eq_some {items : List Item} {run : Run} (h : firstRun? items = some run) :
    items = run.before ++ run.first :: (run.more ++ run.after) ∧ run.more ≠ [] := by
  induction items generalizing run with
  | nil => cases h
  | cons item rest ih =>
    rw [firstRun?] at h
    split at h
    · obtain ⟨run, hrun, rfl⟩ := Option.map_eq_some_iff.mp h
      obtain ⟨hrest, hmore⟩ := ih hrun
      exact ⟨congrArg (item :: ·) hrest, hmore⟩
    · rename_i hfactors
      cases h
      refine ⟨congrArg (item :: ·) (factors_append rest).symm, fun hnil => hfactors ?_⟩
      have hempty : (factors rest).1 = [] := hnil
      simp [hempty]

/-- Makes runs blocks, the first one first, until there is none left or it is all there is. The
numbers of the blocks are given as well. -/
def group (items : List Item) : Tabling (List Item × List Nat) :=
  match _hrun : firstRun? items with
  | none => return (items, [])
  | some run =>
    if run.before.isEmpty && run.after.isEmpty then return (items, [])
    else do
      let block ← make (.block (run.first.id :: run.more.map Item.id)) run.first.cell.offset
      let (items, runs) ← group (run.before ++ block :: run.after)
      return (items, block.id :: runs)
termination_by items.length
decreasing_by
  obtain ⟨hitems, hmore⟩ := firstRun?_eq_some ‹_›
  have hlength := congrArg List.length hitems
  have hpos := List.length_pos_iff.mpr hmore
  simp only [List.length_append, List.length_cons] at hlength ⊢
  omega

end Tabling

/-! ## Mirroring -/

open Tabling

section

variable {α β : Type} {t t' : NodeTable} {y : Tabling α} {g : α → Tabling β}

theorem run_bind_ok {a : α} (hy : y.run t = .ok (a, t')) : (y >>= g).run t = (g a).run t' := by
  rw [StateT.run_bind, hy]
  rfl

theorem run_bind_error {e : TableFault} (hy : y.run t = .error e) : (y >>= g).run t = .error e := by
  rw [StateT.run_bind, hy]
  rfl

end

section

variable {α α' β β' : Type} {t : NodeTable} {y : Tabling β} {x : Arranging α} {g : β → Tabling β'}
  {f : α → Arranging α'} {P : α → β → NodeTable → Prop} {Q : α' → β' → NodeTable → Prop}

/-- From the table `t`, `y` does what `x` does from as many nodes: cells are added, one for each
node, and the results are in `Q`; or both fail with one error. -/
structure Mimics (t : NodeTable) (y : Tabling β) (x : Arranging α) (Q : α → β → NodeTable → Prop) :
    Prop where
  ok {a : α} {k : Nat} : x.run t.size = .ok (a, k) →
    ∃ b t', y.run t = .ok (b, t') ∧ t'.size = k ∧ t.Extends t' ∧ Q a b t'
  error {e : BuildError} : x.run t.size = .error e → y.run t = .error (.build e)

namespace Mimics

/-- Nothing is made, and the table stays as it is. -/
theorem done {a : α} {b : β} (hy : y.run t = .ok (b, t)) (h : P a b t) :
    Mimics t y (Pure.pure a) P where
  ok hx := by
    cases Arranging.pure_ok hx
    exact ⟨b, t, hy, rfl, .refl t, h⟩
  error hx := by cases hx

theorem pure {a : α} {b : β} (h : P a b t) : Mimics t (pure b) (pure a) P := done rfl h

theorem fail {e : BuildError} : Mimics t (fail e) (throw e) P where
  ok hx := (Arranging.throw_ok hx).elim
  error hx := by
    cases hx
    rfl

theorem make (entry : Entry) (offset : Nat) : Mimics t (make entry offset) (newMark offset)
    (fun mark item t' => mark = ⟨t.size, offset⟩ ∧ item = ⟨t.size, ⟨entry, offset⟩⟩ ∧
      t' = t.add ⟨entry, offset⟩) where
  ok hx := by
    cases Arranging.newMark_ok hx
    exact ⟨_, _, rfl, t.size_add, t.extends_add _, rfl, rfl, rfl⟩
  error hx := by cases hx

theorem bind (h : Mimics t y x P) (hf : ∀ a b t', t.Extends t' → x.run t.size = .ok (a, t'.size) →
    P a b t' → Mimics t' (g b) (f a) Q) : Mimics t (y >>= g) (x >>= f) Q where
  ok hrun := by
    obtain ⟨a, k, hx, hfa⟩ := Arranging.bind_ok hrun
    obtain ⟨b, t₁, hy, rfl, hext, hP⟩ := h.ok hx
    obtain ⟨b', t₂, hg, hsize, hext', hQ⟩ := (hf a b t₁ hext hx hP).ok hfa
    exact ⟨b', t₂, (run_bind_ok hy).trans hg, hsize, hext.trans hext', hQ⟩
  error hrun := by
    rcases Arranging.bind_error hrun with hx | ⟨a, k, hx, hfa⟩
    · exact run_bind_error (h.error hx)
    · obtain ⟨b, t₁, hy, rfl, hext, hP⟩ := h.ok hx
      exact (run_bind_ok hy).trans ((hf a b t₁ hext hx hP).error hfa)

/-- A part that leaves the table as it is needs no counterpart. -/
theorem read {b : β} {x : Arranging α'} (hy : y.run t = .ok (b, t)) (h : Mimics t (g b) x Q) :
    Mimics t (y >>= g) x Q where
  ok hx := by
    rw [run_bind_ok hy]
    exact h.ok hx
  error hx := (run_bind_ok hy).trans (h.error hx)

/-- Nodes are made of the results. -/
theorem map {f : α → α'} {Q : α' → β → NodeTable → Prop} (h : Mimics t y x P)
    (hQ : ∀ a b t', t.Extends t' → P a b t' → Q (f a) b t') :
    Mimics t y (x >>= fun a => Pure.pure (f a)) Q where
  ok hrun := by
    obtain ⟨a, k, hx, hfa⟩ := Arranging.bind_ok hrun
    cases Arranging.pure_ok hfa
    obtain ⟨b, t', hy, hsize, hext, hP⟩ := h.ok hx
    exact ⟨b, t', hy, hsize, hext, hQ a b t' hext hP⟩
  error hrun := by
    rcases Arranging.bind_error hrun with hx | ⟨a, k, -, hfa⟩
    · exact h.error hx
    · cases hfa

end Mimics

end

/-! ## Reading -/

variable {s : Scope} {t t' : NodeTable} {ps qs : List Pending} {depth : Nat}

theorem fetch_run {item : Item} (h : t.get? item.id = some item.cell) :
    (fetch item.id).run t = .ok (item, t) := by
  unfold fetch
  show (match t.get? item.id with | some cell => _ | none => _) = _
  rw [h]

theorem fetchAll_run {items : List Item} (h : ∀ item ∈ items, t.get? item.id = some item.cell) :
    ((items.map Item.id).mapM fetch).run t = .ok (items, t) := by
  induction items with
  | nil => rfl
  | cons item rest ih =>
    obtain ⟨hitem, hrest⟩ := List.forall_mem_cons.mp h
    rw [List.map_cons, List.mapM_cons, run_bind_ok (fetch_run hitem), run_bind_ok (ih hrest)]
    rfl

/-- The number of a segment with its cell. -/
def Segment.item (segment : Segment Node) : Item := ⟨segment.mark.slot, segment.cell⟩

private theorem dottedName_items (segments : List (Segment Node)) :
    dottedName (segments.map Segment.item) = memberPath segments := by
  induction segments with
  | nil => rfl
  | cons segment rest ih =>
    cases segment with
    | member mark name generics =>
      rw [List.map_cons, dottedName, memberPath, ih]
      simp [Segment.item, Segment.cell]
    | method | indexer => rfl

/-- The type that a node in a table casts to is that of the node. -/
theorem castTarget?_run {n : Node} (h : t.Holds n) :
    (castTarget? s n.item).run t = .ok (s.castTarget? n, t) := by
  cases n with
  | constant | operator | unresolved | route => rfl
  | cast mark typeMark target signs operand => cases signs <;> rfl
  | block mark items =>
    obtain ⟨-, hitems⟩ := NodeTable.holds_block.mp h
    rcases items with _ | ⟨inner, _ | ⟨second, rest⟩⟩
    · rfl
    · have hinner := hitems inner List.mem_cons_self
      have hfetch : (fetch inner.mark.slot).run t = .ok (inner.item, t) :=
        @fetch_run t inner.item hinner.get?
      refine (run_bind_ok hfetch).trans ?_
      cases inner with
      | constant | operator | unresolved | cast | block => rfl
      | route routeMark head segments =>
        cases head with
        | type => rfl
        | scope =>
          have hall : ∀ item ∈ segments.map Segment.item, t.get? item.id = some item.cell :=
            List.forall_mem_map.mpr fun segment hs =>
              ((NodeTable.holds_route.mp hinner).2 segment hs).1
          have hsegments := fetchAll_run hall
          rw [List.map_map] at hsegments
          refine (run_bind_ok hsegments).trans ?_
          rw [dottedName_items]
          rfl
    · simp [castTarget?, Scope.castTarget?, Node.item, Node.cell]
      rfl

/-! ## Casts -/

/-- The number of a pending node with its cell. -/
def Pending.item (p : Pending) : Item := p.node.item

@[simp]
theorem Pending.operator?_item (p : Pending) : p.item.operator? = p.node.operator? :=
  p.node.operator?_item

@[simp]
theorem Pending.offset_item (p : Pending) : p.item.cell.offset = p.node.offset := p.node.offset_cell

@[simp]
theorem Pending.isOperator_item (p : Pending) : p.item.isOperator = p.node.isOperator :=
  p.node.isOperator_item

/-- The number of an operator of a cast with its cell. -/
def signItem (sign : Mark × Operator) : Item := ⟨sign.1.slot, signCell sign⟩

theorem leading_items (ps : List Pending) :
    (ps.map Pending.item).takeWhile Item.isOperator = (leadingOperators ps).1.map signItem ∧
      (ps.map Pending.item).dropWhile Item.isOperator =
        (leadingOperators ps).2.map Pending.item := by
  induction ps with
  | nil => exact ⟨rfl, rfl⟩
  | cons p rest ih =>
    obtain ⟨node, finish⟩ := p
    rw [List.map_cons, List.takeWhile_cons, List.dropWhile_cons, Pending.isOperator_item]
    cases node with
    | operator mark op =>
      show _ :: _ = _ :: _ ∧ _
      exact ⟨congrArg _ ih.1, ih.2⟩
    | _ => exact ⟨rfl, rfl⟩

/-- The cells that a cast is made of. -/
def castCells (k offset : Nat) (target : TypeName) (signs : List (Mark × Operator))
    (operand : Node) : List Cell :=
  [⟨.convert target, offset⟩, ⟨.block (k :: (signs.map (·.1.slot) ++ [operand.mark.slot])), offset⟩]

/-- A cast of nodes in the table is in it with its own cells. -/
theorem holds_pendCast {operand : Pending} {signs : List (Mark × Operator)} {after : List Pending}
    (hqs : ∀ q ∈ qs, t.Holds q.node) (hl : leadingOperators qs = (signs, operand :: after))
    (target : TypeName) (offset : Nat) :
    ∀ q ∈ s.pendCast ⟨t.size + 1, offset⟩ ⟨t.size, offset⟩ target signs operand :: after,
      (t.addAll (castCells t.size offset target signs operand.node)).Holds q.node := by
  have hnew := @NodeTable.get?_addAll t
  have hext : t.Extends (t.addAll (castCells t.size offset target signs operand.node)) :=
    fun _ _ h => NodeTable.get?_addAll_of_get? h _
  obtain ⟨front, hfront, hsigns⟩ := leadingOperators_append qs
  rw [hl] at hfront hsigns
  have hall : ∀ q ∈ front ++ operand :: after,
      (t.addAll (castCells t.size offset target signs operand.node)).Holds q.node :=
    hfront ▸ fun q hq => (hqs q hq).extend hext
  obtain ⟨hfront, hrest⟩ := List.forall_mem_append.mp hall
  obtain ⟨hoperand, hafter⟩ := List.forall_mem_cons.mp hrest
  refine List.forall_mem_cons.mpr
    ⟨NodeTable.holds_cast.mpr ⟨hnew rfl, @hnew _ _ 0 rfl, fun sign hsign => ?_, hoperand⟩, hafter⟩
  have hmem : Node.operator sign.1 sign.2 ∈ front.map Pending.node :=
    hsigns ▸ List.mem_map_of_mem hsign
  obtain ⟨q, hq, he⟩ := List.mem_map.mp hmem
  have hsign := (hfront q hq).get?
  rwa [he] at hsign

/-- **Forming casts** in a table makes the casts that pending nodes form. -/
theorem casts_mimics (hps : ∀ p ∈ ps, t.Holds p.node) :
    Mimics t (casts s (ps.map Pending.item)) (s.casts ps)
      (fun qs items t' => items = qs.map Pending.item ∧ ∀ q ∈ qs, t'.Holds q.node) := by
  induction ps with
  | nil => exact .pure ⟨rfl, nofun⟩
  | cons p rest ih =>
    obtain ⟨hp, hrest⟩ := List.forall_mem_cons.mp hps
    refine (ih hrest).bind ?_
    rintro qs _ t₁ hext - ⟨rfl, hqs⟩
    refine .read (castTarget?_run (hp.extend hext)) ?_
    cases s.castTarget? p.node with
    | none => exact .pure ⟨rfl, List.forall_mem_cons.mpr ⟨hp.extend hext, hqs⟩⟩
    | some target =>
      obtain ⟨htake, hdrop⟩ := leading_items qs
      simp only [htake, hdrop, Pending.offset_item]
      rcases hl : (leadingOperators qs) with ⟨signs, _ | ⟨operand, after⟩⟩
      · exact .fail
      · refine (Mimics.make _ _).bind ?_
        rintro _ _ _ - - ⟨rfl, rfl, rfl⟩
        refine (Mimics.make _ _).bind ?_
        rintro _ _ _ - - ⟨rfl, rfl, rfl⟩
        rw [NodeTable.size_add]
        have hsigns : (signs.map signItem).map Item.id = signs.map (·.1.slot) := by simp [signItem]
        rw [hsigns]
        exact .pure ⟨rfl, holds_pendCast hqs hl target p.node.offset⟩

/-! ## Bars -/

/-- The cells that a call of `System.Math.Abs` is made of. -/
def absCells (k offset : Nat) (items : List Node) : List Cell :=
  [⟨.block (items.map (·.mark.slot)), offset⟩, ⟨.member "System" [], offset⟩,
    ⟨.member "Math" [], offset⟩, ⟨.method "Abs" [] [k], offset⟩,
    ⟨.route .type [k + 1, k + 2, k + 3], offset⟩]

theorem holds_absNode {items : List Node} (h : ∀ n ∈ items, t.Holds n) (offset : Nat) :
    (t.addAll (absCells t.size offset items)).Holds (absNode t.size offset items) := by
  have hnew := @NodeTable.get?_addAll t
  have hblock : (t.addAll (absCells t.size offset items)).Holds (.block ⟨t.size, offset⟩ items) :=
    NodeTable.holds_block.mpr
      ⟨@hnew _ _ 0 rfl, fun n hn => (h n hn).extend fun _ _ h => NodeTable.get?_addAll_of_get? h _⟩
  refine NodeTable.holds_route.mpr ⟨hnew rfl, ?_⟩
  rw [List.forall_mem_cons, List.forall_mem_cons, List.forall_mem_singleton]
  exact ⟨⟨hnew rfl, nofun⟩, ⟨hnew rfl, nofun⟩, hnew rfl, List.forall_mem_singleton.mpr hblock⟩

theorem absCall_mimics {inner : List Pending} (h : ∀ p ∈ inner, t.Holds p.node) (offset : Nat) :
    Mimics t (Tabling.absCall offset (inner.map Pending.item)) (Formula.absCall offset inner)
      (fun call item t' => call = absPending t.size offset inner ∧ item = call.item ∧
        t'.Holds call.node) := by
  have hitems :
      (inner.map Pending.item).map Item.id = (inner.map Pending.node).map (·.mark.slot) := by
    simp [Pending.item, Node.item]
  have hnodes : ∀ n ∈ inner.map Pending.node, t.Holds n := List.forall_mem_map.mpr h
  unfold Tabling.absCall Formula.absCall
  rw [hitems]
  refine (Mimics.make _ _).bind ?_
  rintro _ _ _ - - ⟨rfl, rfl, rfl⟩
  refine (Mimics.make _ _).bind ?_
  rintro _ _ _ - - ⟨rfl, rfl, rfl⟩
  refine (Mimics.make _ _).bind ?_
  rintro _ _ _ - - ⟨rfl, rfl, rfl⟩
  refine (Mimics.make _ _).bind ?_
  rintro _ _ _ - - ⟨rfl, rfl, rfl⟩
  refine (Mimics.make _ _).map ?_
  rintro _ _ _ - ⟨rfl, rfl, rfl⟩
  simp only [NodeTable.size_add]
  exact ⟨rfl, rfl, holds_absNode hnodes offset⟩

theorem opens_items (before : List Pending) :
    opens (before.map Pending.item) = barOpens before := by
  cases before with
  | nil => rfl
  | cons p before => exact p.isOperator_item

/-- The open spans with cells for the items. -/
def spanItems (spans : List (Nat × List Pending)) : List (Nat × List Item) :=
  spans.map fun span => (span.1, span.2.map Pending.item)

/-- **Replacing bars** in a table makes the calls that pending nodes make. -/
theorem bars_mimics {spans : List (Nat × List Pending)} {before rest : List Pending}
    (h : ∀ p ∈ barItems spans before rest, t.Holds p.node) :
    Mimics t (bars s depth (spanItems spans) (before.map Pending.item) (rest.map Pending.item))
      (s.bars depth spans before rest)
      (fun qs items t' => items = qs.map Pending.item ∧ ∀ q ∈ qs, t'.Holds q.node) := by
  induction rest generalizing spans before t with
  | nil =>
    cases spans with
    | nil =>
      refine .pure ⟨List.map_reverse.symm, fun q hq => h q ?_⟩
      simpa [barItems] using hq
    | cons span spans => exact .fail
  | cons p rest ih =>
    have hperm := barItems_cons_perm spans before rest p
    have hitems : ∀ q ∈ barItems spans before rest, t.Holds q.node := fun q hq =>
      h q (hperm.mem_iff.mpr (List.mem_cons_of_mem p hq))
    rw [List.map_cons]
    unfold Tabling.bars Scope.bars
    rw [Pending.operator?_item, opens_items]
    by_cases hbar : p.node.operator? = some .bar
    · rw [if_pos hbar, if_pos hbar]
      by_cases hopens : barOpens before = true
      · rw [if_pos hopens, if_pos hopens, spanItems, List.length_map]
        by_cases hlimit : s.limit ≤ depth + spans.length
        · rw [if_pos hlimit, if_pos hlimit]
          exact .fail
        · rw [if_neg hlimit, if_neg hlimit, Pending.offset_item]
          exact @ih t ((p.node.offset, before) :: spans) [] (by simpa [barItems] using hitems)
      · rw [if_neg hopens, if_neg hopens]
        cases spans with
        | nil =>
          rw [Pending.offset_item]
          exact .fail
        | cons span spans =>
          obtain ⟨offset, outer⟩ := span
          have hinner : ∀ q ∈ before.reverse, t.Holds q.node := fun q hq =>
            hitems q (List.mem_append_left _ (List.mem_reverse.mp hq))
          have houter : ∀ q ∈ barItems spans outer rest, t.Holds q.node := fun q hq =>
            hitems q (List.mem_append_right _ (by simpa [barItems] using hq))
          simp only [spanItems, List.map_cons]
          rw [← List.map_reverse]
          refine (absCall_mimics hinner offset).bind ?_
          rintro call _ t₁ hext - ⟨-, rfl, hcall⟩
          exact @ih t₁ spans (call :: outer)
            (List.forall_mem_cons.mpr ⟨hcall, fun q hq => (houter q hq).extend hext⟩)
    · rw [if_neg hbar, if_neg hbar]
      exact @ih t spans (p :: before) fun q hq => h q (hperm.mem_iff.mpr hq)

/-! ## Products -/

theorem factors_ne_nil {items : List Item} (h : (factors items).1 ≠ []) : ∃ op operand rest o,
    items = op :: operand :: rest ∧ op.operator? = some o ∧ o.isMultiplicative = true ∧
      operand.operator? = none := by
  rcases items with _ | ⟨op, _ | ⟨operand, rest⟩⟩
  · exact (h rfl).elim
  · exact (h rfl).elim
  · rw [factors] at h
    split at h
    · rename_i hjoins
      obtain ⟨hop, hoperand⟩ := Bool.and_eq_true_iff.mp hjoins
      obtain ⟨o, ho, hmul⟩ := (Option.any_eq_true _ _).mp hop
      exact ⟨op, operand, rest, o, rfl, ho, hmul, by simpa [Item.isOperator] using hoperand⟩
    · exact (h rfl).elim

/-- No run starts with the first of items that have none. -/
theorem firstRun?_cons {item : Item} {rest : List Item}
    (h : ∀ o, [none, some o, none] <+: (item :: rest).map Item.operator? →
      o.isMultiplicative = false) :
    firstRun? (item :: rest) = (firstRun? rest).map fun run =>
      { run with before := item :: run.before } := by
  rw [firstRun?, if_pos]
  rw [Bool.or_eq_true, List.isEmpty_iff, or_iff_not_imp_right]
  intro hmore
  obtain ⟨op, operand, rest, o, rfl, hop, hmul, hoperand⟩ := factors_ne_nil hmore
  rw [Item.isOperator, Option.isSome_iff_ne_none]
  intro hitem
  have hnone := h o ⟨rest.map Item.operator?, by simp [hitem, hop, hoperand]⟩
  cases hnone.symm.trans hmul

theorem firstRun?_eq_none {items : List Item} (h : FactorFree (items.map Item.operator?)) :
    firstRun? items = none := by
  induction items with
  | nil => rfl
  | cons item rest ih =>
    rw [firstRun?_cons fun o ho => h o ho.isInfix, ih (h.of_suffix (List.suffix_cons _ _))]
    rfl

/-- The first run is found behind items that have none, where they do not end in a factor of it. -/
theorem firstRun?_append {front rest : List Item} {item : Item}
    (hfront : FactorFree (front.map Item.operator? ++ [none])) (hitem : item.operator? = none)
    (hmore : (factors rest).1 ≠ []) :
    firstRun? (front ++ item :: rest) = some ⟨front, item, (factors rest).1, (factors rest).2⟩ := by
  induction front with
  | nil =>
    rw [List.nil_append, firstRun?, if_neg]
    simp [Item.isOperator, hitem, hmore]
  | cons first front ih =>
    have hrest := ih (hfront.of_suffix (List.suffix_cons _ _))
    rw [List.cons_append, firstRun?_cons, hrest]
    · rfl
    · intro o ho
      rcases front with _ | ⟨second, front⟩
      · -- the item that follows is no operator
        obtain ⟨more, hmore⟩ := ho
        simp [hitem] at hmore
      · refine hfront o (List.IsPrefix.isInfix (List.prefix_of_prefix_length_le ho ?_ ?_))
        · exact ⟨rest.map Item.operator?, by simp [hitem]⟩
        · simp

@[simp]
theorem firstRun?_singleton (item : Item) : firstRun? [item] = none := by
  simp [firstRun?, factors]

theorem group_of_none {items : List Item} (h : firstRun? items = none) :
    group items = pure (items, []) := by
  rw [group]
  split
  · rfl
  · rename_i hrun
    cases h.symm.trans hrun

theorem group_of_some {items : List Item} {run : Run} (h : firstRun? items = some run) :
    group items = if run.before.isEmpty && run.after.isEmpty then pure (items, []) else do
      let block ← make (.block (run.first.id :: run.more.map Item.id)) run.first.cell.offset
      let (items, runs) ← group (run.before ++ block :: run.after)
      return (items, block.id :: runs) := by
  rw [group]
  split
  · rename_i hrun
    cases h.symm.trans hrun
  · rename_i hrun
    cases h.symm.trans hrun
    rfl

theorem productRuns_operator {p : Pending} {op : Operator} (hp : p.node.operator? = some op)
    (ps : List Pending) :
    productRuns (p :: ps) = [p] :: productRuns ps := by
  rcases productRuns_cons p ps with ⟨_, _, _, _, -, hjoins, -⟩ | ⟨-, hruns⟩
  · cases hp.symm.trans (joins_iff.mp hjoins).1
  · exact hruns

private theorem joins_item {p op q : Pending} (hp : p.node.operator? = none) :
    (op.item.operator?.any Operator.isMultiplicative && !q.item.isOperator) = joins p op q := by
  rw [Bool.eq_iff_iff, joins_iff]
  simp [hp, Node.isOperator, Option.any_eq_true]

/-- The first run of items is the first operand with the factors that follow it. -/
theorem factors_items (p : Pending) (hp : p.node.operator? = none) :
    (ps : List Pending) → ∃ joined after, ps = joined ++ after ∧
      factors (ps.map Pending.item) = (joined.map Pending.item, after.map Pending.item) ∧
      productRuns (p :: ps) = (p :: joined) :: productRuns after
  | [] => ⟨[], [], rfl, rfl, rfl⟩
  | [op] => ⟨[], [op], rfl, rfl, rfl⟩
  | op :: q :: rest => by
    rw [List.map_cons, List.map_cons, factors, joins_item hp]
    by_cases hjoins : joins p op q = true
    · obtain ⟨-, ⟨o, ho, -⟩, hq⟩ := joins_iff.mp hjoins
      obtain ⟨joined, after, rfl, hfactors, hruns⟩ := factors_items q hq rest
      refine ⟨op :: q :: joined, after, rfl, by rw [if_pos hjoins, hfactors]; rfl, ?_⟩
      rw [productRuns, productRuns_operator ho, hruns]
      exact if_pos hjoins
    · refine ⟨[], op :: q :: rest, rfl, by rw [if_neg hjoins]; rfl, ?_⟩
      rcases productRuns_cons p (op :: q :: rest)
        with ⟨op', q', run, more, hruns, hjoins', -⟩ | ⟨-, hruns⟩
      · have hflatten := productRuns_flatten (op :: q :: rest)
        rw [hruns] at hflatten
        cases hflatten
        exact (hjoins hjoins').elim
      · exact hruns

/-- Behind items without factors, the first run is an operand with the factors that follow it. -/
private theorem firstRun?_factors {front : List Item} {p op : Pending} {joined after : List Pending}
    (hfront : FactorFree (front.map Item.operator? ++ [none])) (hp : p.node.operator? = none)
    (hfactors : factors ((op :: joined ++ after).map Pending.item) =
      ((op :: joined).map Pending.item, after.map Pending.item)) :
    firstRun? (front ++ p.item :: (op :: joined ++ after).map Pending.item) =
      some ⟨front, p.item, (op :: joined).map Pending.item, after.map Pending.item⟩ := by
  have hfirst := @firstRun?_append _ ((op :: joined ++ after).map Pending.item) p.item hfront
    (p.operator?_item.trans hp) (by rw [hfactors]; simp)
  rwa [hfactors] at hfirst

/-- A single run is left as it is. -/
theorem group_single (h : (productRuns ps).length ≤ 1) :
    group (ps.map Pending.item) = pure (ps.map Pending.item, []) := by
  have hnil : ∀ {qs : List Pending}, (productRuns qs).length = 0 → qs = [] := by
    intro qs hqs
    rw [← productRuns_flatten qs, List.length_eq_zero_iff.mp hqs]
    rfl
  cases ps with
  | nil => exact group_of_none rfl
  | cons p rest =>
    cases hp : p.node.operator? with
    | some op =>
      rw [productRuns_operator hp, List.length_cons] at h
      cases hnil (Nat.le_zero.mp (Nat.le_of_succ_le_succ h))
      exact group_of_none (firstRun?_singleton p.item)
    | none =>
      obtain ⟨joined, after, rfl, hfactors, hruns⟩ := factors_items p hp rest
      rw [hruns, List.length_cons] at h
      cases hnil (Nat.le_zero.mp (Nat.le_of_succ_le_succ h))
      rw [List.map_nil] at hfactors
      cases joined with
      | nil => exact group_of_none (firstRun?_singleton p.item)
      | cons op joined =>
        have hfront : FactorFree (([] : List Item).map Item.operator? ++ [none]) := fun o ho => by
          have := ho.length_le
          simp at this
        exact (group_of_some (firstRun?_factors hfront hp hfactors)).trans (if_pos rfl)

/-- The nodes that a run of factors stands for: a block, if it is marked, and its items
otherwise. -/
def pieceNodes : Option Mark × List Pending → List Node
  | (some mark, run) => [.block mark (run.map Pending.node)]
  | (none, run) => run.map Pending.node

/-- What runs are grouped to, behind the items `front`. -/
structure RunsGrouped (t : NodeTable) (front : List Item)
    (marked : List (Option Mark × List Pending)) (grouped : List Item × List Nat) (t' : NodeTable) :
    Prop where
  items : grouped.1 = front ++ (marked.flatMap pieceNodes).map Node.item
  holds : ∀ n ∈ marked.flatMap pieceNodes, t'.Holds n
  new : ∀ i ∈ grouped.2, t.size ≤ i
  runs : ∀ run ∈ marked, ∀ mark ∈ run.1, mark.slot ∈ grouped.2

/-- A run of one item is passed. -/
theorem RunsGrouped.single {front : List Item} {marked : List (Option Mark × List Pending)}
    {grouped : List Item × List Nat} {p : Pending}
    (h : RunsGrouped t (front ++ [p.item]) marked grouped t') (hp : t'.Holds p.node) :
    RunsGrouped t front ((none, [p]) :: marked) grouped t' where
  items := by
    rw [h.items, List.append_assoc]
    rfl
  holds := List.forall_mem_cons.mpr ⟨hp, h.holds⟩
  new := h.new
  runs := List.forall_mem_cons.mpr ⟨nofun, h.runs⟩

/-- The block of a run of factors. -/
def runCell (run : List Pending) (offset : Nat) : Cell := ⟨.block (run.map (·.item.id)), offset⟩

/-- A run of several items is a block. -/
theorem RunsGrouped.block {front : List Item} {marked : List (Option Mark × List Pending)}
    {grouped : List Item × List Nat} {run : List Pending} {offset : Nat}
    (h : RunsGrouped (t.add (runCell run offset)) (front ++ [⟨t.size, runCell run offset⟩])
      marked grouped t')
    (hrun : ∀ p ∈ run, t.Holds p.node) (hext : (t.add (runCell run offset)).Extends t') :
    RunsGrouped t front ((some ⟨t.size, offset⟩, run) :: marked)
      (grouped.1, t.size :: grouped.2) t' := by
  have hcell : (Node.block ⟨t.size, offset⟩ (run.map Pending.node)).cell = runCell run offset := by
    simp [Node.cell, runCell, Pending.item, Node.item]
  have hblock : t'.Holds (.block ⟨t.size, offset⟩ (run.map Pending.node)) := by
    refine NodeTable.holds_block.mpr
      ⟨hcell ▸ hext _ _ NodeTable.get?_add_self, List.forall_mem_map.mpr fun p hp => ?_⟩
    exact (hrun p hp).extend ((t.extends_add _).trans hext)
  refine ⟨?_, List.forall_mem_cons.mpr ⟨hblock, h.holds⟩, ?_, ?_⟩
  · rw [h.items, List.append_assoc, List.flatMap_cons, List.map_append, ← hcell]
    rfl
  · refine List.forall_mem_cons.mpr ⟨Nat.le_refl _, fun i hi => ?_⟩
    have hnew := h.new i hi
    rw [NodeTable.size_add] at hnew
    omega
  · refine List.forall_mem_cons.mpr
      ⟨?_, fun run hrun mark hmark => List.mem_cons_of_mem _ (h.runs run hrun mark hmark)⟩
    rintro _ ⟨⟩
    exact List.mem_cons_self

/-- Grouping runs marks them, one after the other. -/
theorem group_front {front : List Item} (hps : ∀ p ∈ ps, t.Holds p.node)
    (hfree : FactorFree (front.map Item.operator? ++ (productRuns ps).map standing))
    (hmany : front = [] → 1 < (productRuns ps).length) :
    Mimics t (group (front ++ ps.map Pending.item)) ((productRuns ps).mapM markRun)
      (RunsGrouped t front) := by
  induction hn : ps.length using Nat.strongRecOn generalizing ps front t with
  | _ n ih =>
    subst hn
    have hsingle : ∀ {p rest}, ps = p :: rest → productRuns ps = [p] :: productRuns rest →
        Mimics t (group (front ++ ps.map Pending.item)) ((productRuns ps).mapM markRun)
        (RunsGrouped t front) := by
      rintro p rest rfl hruns
      obtain ⟨hp, hrest⟩ := List.forall_mem_cons.mp hps
      rw [hruns] at hfree ⊢
      have hnext := @ih rest.length (Nat.lt_succ_self _) t rest (front ++ [p.item]) hrest
        (by simpa [standing] using hfree) (by simp) rfl
      rw [List.append_assoc, List.singleton_append] at hnext
      rw [List.mapM_cons]
      refine hnext.map ?_
      exact fun marked grouped t' hext h => h.single (hp.extend hext)
    cases ps with
    | nil =>
      rw [List.map_nil, List.append_nil,
        group_of_none (firstRun?_eq_none (by simpa [productRuns] using hfree))]
      refine .pure ⟨by simp, ?_, ?_, ?_⟩ <;> simp
    | cons p rest =>
      cases hp : p.node.operator? with
      | some op => exact hsingle rfl (productRuns_operator hp rest)
      | none =>
        obtain ⟨joined, after, rfl, hfactors, hruns⟩ := factors_items p hp rest
        cases joined with
        | nil => exact hsingle rfl hruns
        | cons op joined =>
          rw [hruns] at hfree
          obtain ⟨hrun, hafter⟩ := List.forall_mem_append.mp
            (show ∀ q ∈ (p :: op :: joined) ++ after, t.Holds q.node from hps)
          have hfront : FactorFree (front.map Item.operator? ++ [none]) := by
            refine fun o ho =>
              hfree o (ho.trans (List.IsPrefix.isInfix ⟨(productRuns after).map standing, ?_⟩))
            simp [standing]
          have hpart : ¬ (front.isEmpty && (after.map Pending.item).isEmpty) = true := by
            rw [Bool.and_eq_true, List.isEmpty_iff, List.isEmpty_iff, List.map_eq_nil_iff]
            rintro ⟨hnil, rfl⟩
            have hlong := hmany hnil
            rw [hruns] at hlong
            exact Nat.lt_irrefl 1 hlong
          rw [List.map_cons, group_of_some (firstRun?_factors hfront hp hfactors), if_neg hpart,
            hruns, List.mapM_cons]
          have hids : p.item.id :: ((op :: joined).map Pending.item).map Item.id =
              (p :: op :: joined).map (·.item.id) := by simp
          simp only [hids, Pending.offset_item, markRun, bind_assoc, pure_bind]
          refine (Mimics.make _ _).bind ?_
          rintro _ _ _ hext - ⟨rfl, rfl, rfl⟩
          have hnext := @ih after.length (by simp; omega) _ after
            (front ++ [⟨t.size, runCell (p :: op :: joined) p.node.offset⟩])
            (fun q hq => (hafter q hq).extend hext)
            (by simpa [standing, Item.operator?, runCell] using hfree) (by simp) rfl
          rw [List.append_assoc, List.singleton_append] at hnext
          exact hnext.bind fun marked grouped t' hext' _ h => .pure (h.block hrun hext')

/-- **Grouping runs** in a table marks the runs that pending nodes are split into. -/
theorem group_mimics (hps : ∀ p ∈ ps, t.Holds p.node) :
    Mimics t (group (ps.map Pending.item)) (markRuns (productRuns ps)) (RunsGrouped t []) := by
  unfold markRuns
  split
  · rename_i hone
    rw [group_single hone]
    have hnodes : ((productRuns ps).map ((none : Option Mark), ·)).flatMap pieceNodes =
        ps.map Pending.node := by
      rw [List.flatMap_map]
      conv => rhs; rw [← productRuns_flatten ps, List.map_flatten]
      rfl
    refine .pure ⟨?_, ?_, nofun, ?_⟩
    · rw [hnodes, List.map_map]
      rfl
    · rw [hnodes]
      exact List.forall_mem_map.mpr hps
    · exact List.forall_mem_map.mpr fun run _ => nofun
  · rename_i hmany
    exact @group_front t ps [] hps (factorFree_standing ps) fun _ => Nat.lt_of_not_le hmany

end Formula
