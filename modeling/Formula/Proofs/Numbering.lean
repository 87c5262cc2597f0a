import Formula.Proofs.Tree

/-!
# The numbers of the nodes of a tree

`Node.slots n` lists the numbers of all nodes of the tree `n`, those of its segments and of the
operators of its casts included, in the order of the text. A tree is numbered below `k` when these
numbers are distinct and below `k` (`Node.Numbered`): then no two of its nodes share a binding.
-/

namespace Formula

/-- The numbers `S` are distinct and below `k`. -/
def Below (S : List Nat) (k : Nat) : Prop := S.Nodup ∧ ∀ i ∈ S, i < k

namespace Below

variable {S T : List Nat} {k k' : Nat}

theorem of_append (h : Below (S ++ T) k) : Below S k ∧ Below T k := by
  obtain ⟨hS, hT, -⟩ := List.nodup_append.mp h.1
  exact ⟨⟨hS, fun i hi => h.2 i (List.mem_append_left T hi)⟩,
    ⟨hT, fun i hi => h.2 i (List.mem_append_right S hi)⟩⟩

theorem mono (h : Below S k) (hk : k ≤ k') : Below S k' :=
  ⟨h.1, fun i hi => Nat.lt_of_lt_of_le (h.2 i hi) hk⟩

theorem perm (h : Below S k) (hp : S.Perm T) : Below T k :=
  ⟨hp.nodup_iff.mp h.1, fun i hi => h.2 i (hp.mem_iff.mpr hi)⟩

end Below

namespace Node

mutual

/-- The numbers of the nodes of a tree. -/
def slots : Node → List Nat
  | .constant mark _ | .operator mark _ | .unresolved mark _ => [mark.slot]
  | .cast mark typeMark _ signs operand =>
    mark.slot :: typeMark.slot :: (signs.map (·.1.slot) ++ slots operand)
  | .route mark _ segments => mark.slot :: slotsOfSegments segments
  | .block mark items => mark.slot :: slotsAll items

/-- The numbers of the nodes of a list of trees. -/
def slotsAll : List Node → List Nat
  | [] => []
  | n :: ns => slots n ++ slotsAll ns

/-- The numbers of the segments of a route and of the nodes of their arguments. -/
def slotsOfSegments : List (Segment Node) → List Nat
  | [] => []
  | .member mark _ _ :: rest => mark.slot :: slotsOfSegments rest
  | .method mark _ _ args :: rest => mark.slot :: (slotsAll args ++ slotsOfSegments rest)
  | .indexer mark args :: rest => mark.slot :: (slotsAll args ++ slotsOfSegments rest)

end

/-- The nodes of a tree have distinct numbers below `k`. -/
def Numbered (k : Nat) (n : Node) : Prop := Below n.slots k

theorem slotsAll_append (ns ms : List Node) : slotsAll (ns ++ ms) = slotsAll ns ++ slotsAll ms := by
  induction ns with
  | nil => rfl
  | cons n ns ih => simp [slotsAll, ih]

theorem slots_sublist {n : Node} {ns : List Node} (h : n ∈ ns) : n.slots.Sublist (slotsAll ns) := by
  obtain ⟨before, after, rfl⟩ := List.append_of_mem h
  rw [slotsAll_append]
  exact (List.sublist_append_left _ _).trans (List.sublist_append_right _ _)

theorem slotsOfSegments_cons (segment : Segment Node) (rest : List (Segment Node)) :
    slotsOfSegments (segment :: rest) =
      segment.mark.slot :: (slotsAll segment.args ++ slotsOfSegments rest) := by
  cases segment <;> rfl

theorem slotsOfSegments_append (segments rest : List (Segment Node)) :
    slotsOfSegments (segments ++ rest) = slotsOfSegments segments ++ slotsOfSegments rest := by
  induction segments with
  | nil => rfl
  | cons s segments ih => simp [slotsOfSegments_cons, ih]

theorem slots_sublist_of_arg {segments : List (Segment Node)} {segment : Segment Node}
    (hs : segment ∈ segments) {n : Node} (hn : n ∈ segment.args) :
    n.slots.Sublist (slotsOfSegments segments) := by
  obtain ⟨before, after, rfl⟩ := List.append_of_mem hs
  rw [slotsOfSegments_append, slotsOfSegments_cons]
  refine .trans ?_ (List.sublist_append_right _ _)
  exact ((slots_sublist hn).trans (List.sublist_append_left _ _)).cons _

theorem slotsOfSegments_tail_subset (segments : List (Segment Node)) :
    slotsOfSegments segments.tail ⊆ slotsOfSegments segments := by
  cases segments with
  | nil => exact List.Subset.refl _
  | cons segment rest =>
    rw [List.tail_cons, slotsOfSegments_cons]
    exact fun i hi => List.mem_cons_of_mem _ (List.mem_append_right _ hi)

end Node

end Formula
