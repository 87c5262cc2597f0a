import Formula.Proofs.TablePasses

/-!
# Arranging a table

The blocks of a table are arranged in place. A stack lists the cells to visit with their levels of
nesting; a visit arranges the cell, if it is a block, and puts its parts on the stack, the last one
on top. New cells are visited like those that were read, so a cast, the inside of bars and a run of
factors are visited once more as blocks. `NodeTable.run` goes on as long as something is on the
stack; nothing in it says that it ends.

* `CarriesOut s t S y x Q`: after `y` the worklist does what `x` does, and changes cells of the
  numbers `S` and new ones only.
* `Turns s D stack x C P`: where the table has the cells `D`, working off `stack` does what `x`
  does; what `x` makes has `P`, its cells are in the table then, and each of them was visited once.

`Turns.both` and `Turns.wrap` are the rules for two parts of a stack and for a cell with its parts.
-/

namespace Formula

open Tabling

/-! ## Visits -/

/-- A number to visit, and its level of nesting. -/
abbrev Visit := Nat × Nat

namespace Tabling

/-- The visit of an item of a block at level `depth`: a block is one level further in, unless it is
the block of a run. -/
def visitOf (depth : Nat) (runs : List Nat) (item : Item) : Visit :=
  (item.id, if item.isBlock && !runs.contains item.id then depth + 1 else depth)

/-- Groups runs, and gives the block its items. -/
def regroup (block : Item) (depth : Nat) (items : List Item) : Tabling (List Visit) := do
  let (items, runs) ← group items
  put block.id ⟨.block (items.map Item.id), block.cell.offset⟩
  return (items.map (visitOf depth runs)).reverse

/-- Fails beyond the bound on nesting. -/
def checkDepth (s : Scope) (depth : Nat) : Tabling Unit :=
  if s.limit < depth then fail s.tooDeep else pure ()

/-- Arranges a block of the given items. -/
def arrangeBlock (s : Scope) (block : Item) (depth : Nat) (ids : List Nat) :
    Tabling (List Visit) := do
  checkDepth s depth
  let items ← ids.mapM fetch
  let items ← casts s items
  let items ← bars s depth [] [] items
  regroup block depth items

/-- Visits a cell; gives the visits of its parts, the last one first. -/
def visit (s : Scope) (id depth : Nat) : Tabling (List Visit) := do
  let item ← fetch id
  match item.cell.entry with
  | .block ids => arrangeBlock s item depth ids
  | .route _ segments => return (segments.map (·, depth)).reverse
  | .method _ _ args | .indexer args => return (args.map (·, depth + 1)).reverse
  | _ => return []

end Tabling

namespace NodeTable

/-- Works off a stack of visits. There is no result if more than the given number of steps are
needed. -/
def run (s : Scope) : (steps : Nat) → NodeTable → List Visit → Option (Except TableFault NodeTable)
  | _, t, [] => some (.ok t)
  | 0, _, _ :: _ => none
  | steps + 1, t, (id, depth) :: rest =>
    match (visit s id depth).run t with
    | .error e => some (.error e)
    | .ok (visits, t) => run s steps t (visits ++ rest)

/-- Goes on after a visit. -/
def resume (s : Scope) (steps : Nat) (rest : List Visit) :
    Except TableFault (List Visit × NodeTable) → Option (Except TableFault NodeTable)
  | .error e => some (.error e)
  | .ok (visits, t) => run s steps t (visits ++ rest)

theorem run_succ (s : Scope) (steps : Nat) (t : NodeTable) (id depth : Nat) (rest : List Visit) :
    run s (steps + 1) t ((id, depth) :: rest) = resume s steps rest ((visit s id depth).run t) := by
  rw [run]
  cases (visit s id depth).run t <;> rfl

end NodeTable

/-! ## Carrying out -/

section

variable {α β γ : Type} {s : Scope} {t t' : NodeTable} {S S' : List Nat}
  {y y' : Tabling (List Visit)} {x : Arranging α} {f : α → Arranging β}
  {P Q : α → Nat → NodeTable → Prop} {R : β → Nat → NodeTable → Prop}

/-- After `y` the worklist does what `x` does from as many nodes. In a number of steps it comes to
what is below on the stack; cells of the numbers `S` may have changed then, and the results are in
`Q`. Or it stops with the error of `x`. -/
structure CarriesOut (s : Scope) (t : NodeTable) (S : List Nat) (y : Tabling (List Visit))
    (x : Arranging α) (Q : α → Nat → NodeTable → Prop) : Prop where
  ok {a : α} {k : Nat} : x.run t.size = .ok (a, k) → ∃ steps t',
    (∀ rest more, NodeTable.resume s (steps + more) rest (y.run t) = NodeTable.run s more t' rest) ∧
      t'.size = k ∧ t.SameBut S t' ∧ Q a steps t'
  error {e : BuildError} : x.run t.size = .error e → ∃ steps, ∀ rest more,
    NodeTable.resume s (steps + more) rest (y.run t) = some (.error (.build e))

namespace CarriesOut

theorem pure {a : α} (h : Q a 0 t) : CarriesOut s t S (pure []) (pure a) Q where
  ok hx := by
    cases Arranging.pure_ok hx
    refine ⟨0, t, fun rest more => ?_, rfl, .refl S t, h⟩
    rw [Nat.zero_add]
    rfl
  error hx := by cases hx

theorem congr (h : CarriesOut s t S y' x Q) (hy : y.run t = y'.run t) : CarriesOut s t S y x Q where
  ok hx := by
    rw [hy]
    exact h.ok hx
  error hx := by
    rw [hy]
    exact h.error hx

/-- A visit may leave the table as it is. -/
theorem same {stack : List Visit} (hy : y.run t = .ok (stack, t))
    (h : CarriesOut s t S (Pure.pure stack) x Q) :
    CarriesOut s t S y x Q :=
  h.congr hy

/-- The next visit is the next step. -/
theorem step {id depth : Nat}
    (h : CarriesOut s t S (visit s id depth) x fun a steps t' => Q a (steps + 1) t') :
    CarriesOut s t S (Pure.pure [(id, depth)]) x Q := by
  have hstep : ∀ steps rest more, NodeTable.resume s (steps + 1 + more) rest
      ((Pure.pure [(id, depth)] : Tabling (List Visit)).run t) =
        NodeTable.resume s (steps + more) rest ((visit s id depth).run t) := by
    intro steps rest more
    rw [Nat.add_right_comm]
    exact NodeTable.run_succ s _ t id depth rest
  constructor
  · intro a k hx
    obtain ⟨steps, t', hrun, hsize, hsame, hQ⟩ := h.ok hx
    exact ⟨steps + 1, t', fun rest more => (hstep steps rest more).trans (hrun rest more),
      hsize, hsame, hQ⟩
  · intro e hx
    obtain ⟨steps, hrun⟩ := h.error hx
    exact ⟨steps + 1, fun rest more => (hstep steps rest more).trans (hrun rest more)⟩

/-- A part that leaves the table as it is needs no counterpart. -/
theorem read {δ : Type} {z : Tabling δ} {g : δ → Tabling (List Visit)} {v : δ}
    (hz : z.run t = .ok (v, t)) (h : CarriesOut s t S (g v) x Q) : CarriesOut s t S (z >>= g) x Q :=
  h.congr (run_bind_ok hz)

/-- A pass comes first. -/
theorem pass {δ : Type} {z : Tabling δ} {g : δ → Tabling (List Visit)}
    {M : α → δ → NodeTable → Prop} (S' : α → List Nat) (h : Mimics t z x M)
    (hf : ∀ a b t', t.Extends t' → x.run t.size = .ok (a, t'.size) →
      M a b t' → (∀ i ∈ S' a, i ∈ S ∨ t.size ≤ i) ∧ CarriesOut s t' (S' a) (g b) (f a) R) :
    CarriesOut s t S (z >>= g) (x >>= f) R where
  ok hrun := by
    obtain ⟨a, k, hx, hfa⟩ := Arranging.bind_ok hrun
    obtain ⟨b, t₁, hz, rfl, hext, hM⟩ := h.ok hx
    obtain ⟨hS, hnext⟩ := hf a b t₁ hext hx hM
    obtain ⟨steps, t₂, hrun, hsize, hsame, hR⟩ := hnext.ok hfa
    rw [run_bind_ok hz]
    exact ⟨steps, t₂, hrun, hsize, (hext.sameBut S).trans hsame hS, hR⟩
  error hrun := by
    rcases Arranging.bind_error hrun with hx | ⟨a, k, hx, hfa⟩
    · refine ⟨0, fun rest more => ?_⟩
      rw [run_bind_error (h.error hx)]
      rfl
    · obtain ⟨b, t₁, hz, rfl, hext, hM⟩ := h.ok hx
      rw [run_bind_ok hz]
      exact (hf a b t₁ hext hx hM).2.error hfa

/-- A check comes first, which leaves the table as it is. -/
theorem check {δ : Type} {z : Tabling δ} {g : δ → Tabling (List Visit)} {M : α → δ → Prop}
    (h : Mimics t z x fun a b t' => M a b ∧ t' = t)
    (hf : ∀ a b, M a b → CarriesOut s t S (g b) (f a) R) :
    CarriesOut s t S (z >>= g) (x >>= f) R := by
  refine pass (fun _ => S) h ?_
  rintro a b _ - - ⟨hM, rfl⟩
  exact ⟨fun _ => .inl, hf a b hM⟩

/-- A cell is replaced first. -/
theorem put {id : Nat} {cell : Cell} (hid : id ∈ S) (h : CarriesOut s (t.put id cell) S y x Q) :
    CarriesOut s t S (Tabling.put id cell >>= fun _ => y) x Q where
  ok hx := by
    obtain ⟨steps, t', hrun, hsize, hsame, hQ⟩ := h.ok (NodeTable.size_put (t := t) ▸ hx)
    have hput := @NodeTable.sameBut_put t id cell S hid
    exact ⟨steps, t', hrun, hsize, hput.trans hsame fun _ => .inl, hQ⟩
  error hx := h.error (NodeTable.size_put (t := t) ▸ hx)

/-- Nodes are made of the results. -/
theorem map {g : α → β} (h : CarriesOut s t S y x P) (hS : ∀ i ∈ S, i ∈ S' ∨ t.size ≤ i)
    (hR : ∀ a steps t', t.SameBut S t' → P a steps t' → R (g a) steps t') :
    CarriesOut s t S' y (x >>= fun a => Pure.pure (g a)) R where
  ok hrun := by
    obtain ⟨a, k, hx, hfa⟩ := Arranging.bind_ok hrun
    cases Arranging.pure_ok hfa
    obtain ⟨steps, t', hrun, hsize, hsame, hP⟩ := h.ok hx
    exact ⟨steps, t', hrun, hsize, hsame.mono hS, hR a steps t' hsame hP⟩
  error hrun := by
    rcases Arranging.bind_error hrun with hx | ⟨a, k, -, hfa⟩
    · exact h.error hx
    · cases hfa

/-- What is on top of the stack comes first. -/
theorem append {S₁ S₂ : List Nat} {above below : List Visit}
    (h : CarriesOut s t S₁ (Pure.pure above) x P)
    (hf : ∀ a steps t', t.SameBut S₁ t' → x.run t.size = .ok (a, t'.size) → P a steps t' →
      CarriesOut s t' S₂ (Pure.pure below) (f a) fun b more t'' => R b (steps + more) t'')
    (hS₁ : S₁ ⊆ S) (hS₂ : S₂ ⊆ S) : CarriesOut s t S (Pure.pure (above ++ below)) (x >>= f) R := by
  have hstack : ∀ rest steps, NodeTable.resume s steps rest
      ((Pure.pure (above ++ below) : Tabling (List Visit)).run t) =
        NodeTable.resume s steps (below ++ rest)
        ((Pure.pure above : Tabling (List Visit)).run t) := by
    intro rest steps
    exact congrArg (NodeTable.run s steps t) (List.append_assoc above below rest)
  constructor
  · intro b k hrun
    obtain ⟨a, k₁, hx, hfa⟩ := Arranging.bind_ok hrun
    obtain ⟨steps, t₁, habove, rfl, hsame, hP⟩ := h.ok hx
    obtain ⟨more, t₂, hbelow, hsize, hsame', hR⟩ := (hf a steps t₁ hsame hx hP).ok hfa
    have hfirst := hsame.mono fun i hi => .inl (hS₁ hi)
    refine ⟨steps + more, t₂, fun rest fuel => ?_, hsize,
      hfirst.trans hsame' fun i hi => .inl (hS₂ hi), hR⟩
    rw [hstack, Nat.add_assoc, habove]
    exact hbelow rest fuel
  · intro e hrun
    rcases Arranging.bind_error hrun with hx | ⟨a, k₁, hx, hfa⟩
    · obtain ⟨steps, habove⟩ := h.error hx
      exact ⟨steps, fun rest fuel => (hstack rest _).trans (habove _ fuel)⟩
    · obtain ⟨steps, t₁, habove, rfl, hsame, hP⟩ := h.ok hx
      obtain ⟨more, hbelow⟩ := (hf a steps t₁ hsame hx hP).error hfa
      refine ⟨steps + more, fun rest fuel => ?_⟩
      rw [hstack, Nat.add_assoc, habove]
      exact hbelow rest fuel

end CarriesOut

/-! ## Turning cells into others -/

/-- The numbers of cells. -/
def cellIds (cells : List (Nat × Cell)) : List Nat := cells.map Prod.fst

/-- Where the table has the cells `D`, of distinct numbers, working off the stack does what `x`
does. What `x` makes has `P`, and its cells are `C`: the table has them then, and they are as many
as the steps. -/
def Turns (s : Scope) (D : List (Nat × Cell)) (stack : List Visit) (x : Arranging α)
    (C : α → List (Nat × Cell)) (P : α → Prop) : Prop :=
  ∀ t : NodeTable, t.Has D → (cellIds D).Nodup →
    CarriesOut s t (cellIds D) (Pure.pure stack) x fun a steps t' => steps = (C a).length ∧
    t'.Has (C a) ∧ P a

theorem NodeTable.Has.below {D : List (Nat × Cell)} (h : t.Has D) (hD : (cellIds D).Nodup) :
    Below (cellIds D) t.size :=
  ⟨hD, List.forall_mem_map.mpr fun e he => NodeTable.lt_size_of_get? (h e he)⟩

namespace Turns

variable {D D₁ D₂ : List (Nat × Cell)} {above below stack : List Visit} {z : Arranging γ}
  {C₁ : α → List (Nat × Cell)} {C₂ : γ → List (Nat × Cell)} {C : β → List (Nat × Cell)}
  {P₁ : α → Prop} {P₂ : γ → Prop} {R : β → Prop}

/-- Two parts of a stack. The upper one makes cells of its own numbers and of new ones, so the lower
one is there when its turn comes, and does not change what was made. -/
theorem both {g : γ → α → β} (h₁ : Turns s D₁ above x C₁ P₁)
    (hgrows : ∀ {k a k'}, Below (cellIds D₁) k → x.run k = .ok (a, k') →
      Grows (cellIds D₁) k (cellIds (C₁ a)) k')
    (h₂ : Turns s D₂ below z C₂ P₂)
    (hC : ∀ c a, P₂ c → P₁ a → C (g c a) = C₂ c ++ C₁ a ∧ R (g c a)) :
    Turns s (D₂ ++ D₁) (above ++ below) (x >>= fun a => z >>= fun c => Pure.pure (g c a)) C R := by
  intro t ht hD
  obtain ⟨ht₂, ht₁⟩ := NodeTable.has_append.mp ht
  have hids : cellIds (D₂ ++ D₁) = cellIds D₂ ++ cellIds D₁ := List.map_append
  rw [hids] at hD ⊢
  obtain ⟨hD₂, hD₁, hdisjoint⟩ := List.nodup_append.mp hD
  refine (h₁ t ht₁ hD₁).append ?_ (List.subset_append_right _ _) (List.subset_append_left _ _)
  rintro a steps t₁ hsame hx ⟨hsteps, hC₁, hP₁⟩
  have hthere : t₁.Has D₂ := ht₂.of_sameBut hsame fun i hi₂ hi₁ => hdisjoint i hi₂ i hi₁ rfl
  refine (h₂ t₁ hthere hD₂).map (fun _ => .inl) ?_
  rintro c more t₂ hsame' ⟨hmore, hC₂, hP₂⟩
  obtain ⟨hcells, hR⟩ := hC c a hP₂ hP₁
  refine ⟨?_, ?_, hR⟩
  · rw [hcells, List.length_append, hsteps, hmore, Nat.add_comm]
  · rw [hcells]
    refine NodeTable.has_append.mpr ⟨hC₂, hC₁.of_sameBut hsame' fun i hi hi₂ => ?_⟩
    rcases (hgrows (ht₁.below hD₁) hx).mem i hi with hi₁ | ⟨hnew, -⟩
    · exact hdisjoint i hi₂ i hi₁ rfl
    · exact Nat.not_le.mpr ((ht₂.below hD₂).2 i hi₂) hnew

/-- A cell that a visit leaves as it is, and its parts. -/
theorem wrap {id depth : Nat} {cell : Cell} {g : α → β}
    (hvisit : ∀ t : NodeTable, t.Has ((id, cell) :: D) → (visit s id depth).run t = .ok (stack, t))
    (h : Turns s D stack x C₁ P₁) (hC : ∀ a, P₁ a → C (g a) = (id, cell) :: C₁ a ∧ R (g a)) :
    Turns s ((id, cell) :: D) [(id, depth)] (x >>= fun a => Pure.pure (g a)) C R := by
  intro t ht hD
  obtain ⟨hcell, hparts⟩ := NodeTable.has_cons.mp ht
  obtain ⟨hid, hD⟩ := List.nodup_cons.mp hD
  refine .step ((CarriesOut.same (hvisit t ht) (h t hparts hD)).map
    (fun i hi => .inl (List.mem_cons_of_mem _ hi)) ?_)
  rintro a steps t' hsame ⟨hsteps, hC₁, hP₁⟩
  obtain ⟨hcells, hR⟩ := hC a hP₁
  refine ⟨by rw [hcells, List.length_cons, hsteps], ?_, hR⟩
  rw [hcells]
  refine NodeTable.has_cons.mpr ⟨?_, hC₁⟩
  rw [hsame.get? id (NodeTable.lt_size_of_get? hcell) hid]
  exact hcell

theorem nil : Turns s [] [] (Pure.pure ()) (fun _ => []) fun _ => True :=
  fun _ _ _ => .pure ⟨rfl, nofun, trivial⟩

theorem visit_leaf {id depth : Nat} {cell : Cell} (h : t.get? id = some cell)
    (hleaf : cell.entry.isLeaf = true) :
    (visit s id depth).run t = .ok ([], t) := by
  refine (run_bind_ok (@fetch_run t ⟨id, cell⟩ h)).trans ?_
  obtain ⟨entry, offset⟩ := cell
  cases entry <;> first | rfl | cases hleaf

theorem leaf {id depth : Nat} {cell : Cell} {b : β} (hleaf : cell.entry.isLeaf = true)
    (hC : C b = [(id, cell)]) (hR : R b) :
    Turns s [(id, cell)] [(id, depth)] (Pure.pure b) C R := by
  have hvisit : ∀ t : NodeTable, t.Has [(id, cell)] → (visit s id depth).run t = .ok ([], t) :=
    fun t ht => visit_leaf (NodeTable.has_cons.mp ht).1 hleaf
  exact nil.wrap hvisit fun _ _ => ⟨hC, hR⟩

theorem leaves {D : List (Nat × Cell)} (h : ∀ e ∈ D, e.2.entry.isLeaf = true) (depth : Nat) :
    Turns s D (D.map fun e => (e.1, depth)).reverse (Pure.pure ()) (fun _ => D) fun _ => True := by
  induction D with
  | nil => exact nil
  | cons e D ih =>
    obtain ⟨he, hD⟩ := List.forall_mem_cons.mp h
    rw [List.map_cons, List.reverse_cons]
    have hleaf : Turns s [e] [(e.1, depth)] (Pure.pure ()) (fun _ => [e]) fun _ => True :=
      leaf he rfl trivial
    have hgrows : ∀ {k : Nat} {a : Unit} {k' : Nat}, Below (cellIds D) k →
        (Pure.pure () : Arranging Unit).run k = .ok (a, k') →
        Grows (cellIds D) k (cellIds D) k' := by
      intro k a k' hk hx
      cases Arranging.pure_ok hx
      exact .refl hk
    exact both (g := fun _ _ => ()) (C := fun _ => e :: D) (R := fun _ => True) (ih hD) hgrows hleaf
      fun _ _ _ _ => ⟨rfl, trivial⟩

end Turns

end

end Formula
