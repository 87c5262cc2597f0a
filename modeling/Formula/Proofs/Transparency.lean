import Formula.Binder
import Formula.Proofs.Comparison

/-!
# Binding without slots

`Node.meaning` binds a tree without keeping anything. Binding a tree whose nodes have distinct
numbers, from slots that are empty at these numbers, has the same outcome (`resolve_eq_meaning`):
no node of such a tree is asked for twice.
-/

namespace Formula

namespace Slots

@[simp] theorem get?_empty (n slot : Nat) : (empty n).get? slot = none := by
  simp only [get?, empty, Array.getElem?_replicate]
  split <;> rfl

theorem get?_fill_ne (s : Slots) {slot other : Nat} (b : Bound) (h : other ≠ slot) :
    (s.fill slot b).get? other = s.get? other := by
  simp only [get?, fill]
  rw [Array.getElem?_setIfInBounds_ne (Ne.symm h)]

theorem get?_fill_self {s : Slots} {slot : Nat} (b : Bound) (h : slot < s.entries.size) :
    (s.fill slot b).get? slot = some b := by
  simp [get?, fill, h]

/-- What is kept after a slot is filled was kept before, or is the new binding. -/
theorem of_get?_fill {s : Slots} {slot i : Nat} {b v : Bound}
    (h : (s.fill slot b).get? i = some v) :
    i = slot ∧ v = b ∨ i ≠ slot ∧ s.get? i = some v := by
  by_cases his : i = slot
  · subst his
    refine .inl ⟨rfl, ?_⟩
    by_cases hlt : i < s.entries.size
    · rw [get?_fill_self b hlt] at h
      exact (Option.some.inj h).symm
    · simp [get?, fill, hlt] at h
  · rw [get?_fill_ne s b his] at h
    exact .inr ⟨his, h⟩

/-- None of the slots `S` is filled. -/
def FreeAt (S : List Nat) (s : Slots) : Prop := ∀ i ∈ S, s.get? i = none

end Slots

namespace Resolving

variable {α β : Type}

theorem run_bind (x : Resolving α) (f : α → Resolving β) (slots : Slots) :
    (x >>= f).run slots =
      match x.run slots with
      | (.ok a, next) => (f a).run next
      | (.error e, next) => (.error e, next) := by
  simp only [bind, ExceptT.bind, ExceptT.mk, ExceptT.run, StateT.bind]
  rcases x slots with ⟨_ | _, _⟩ <;> rfl

/-- A slot that is filled answers; one that is free is filled with the outcome, if there is one. -/
theorem run_keep_eq (slot : Nat) (x : Resolving Bound) (slots : Slots) :
    (BindMonad.keep slot x : Resolving Bound).run slots =
      match slots.get? slot with
      | some b => (.ok b, slots)
      | none =>
        match x.run slots with
        | (.ok b, next) => (.ok b, next.fill slot b)
        | (.error e, next) => (.error e, next) := rfl

theorem run_keep {slots : Slots} {slot : Nat} (x : Resolving Bound) (h : slots.get? slot = none) :
    (BindMonad.keep slot x : Resolving Bound).run slots =
      match x.run slots with
      | (.ok b, next) => (.ok b, next.fill slot b)
      | (.error e, next) => (.error e, next) := by
  rw [run_keep_eq, h]

theorem run_keep_filled {slots : Slots} {slot : Nat} {b : Bound} (x : Resolving Bound)
    (h : slots.get? slot = some b) :
    (BindMonad.keep slot x : Resolving Bound).run slots = (.ok b, slots) := by
  rw [run_keep_eq, h]

end Resolving

/-- From slots that are free at `S` a computation has an outcome that compares with `y`, and it
leaves all other slots alone. -/
def Computes {α β : Type} (S : List Nat) (R : α → β → Prop) (x : Resolving α)
    (y : Except BuildError β) : Prop :=
  ∀ slots : Slots, slots.FreeAt S →
    SameOutcome R (x.run slots).1 y ∧ ∀ j, j ∉ S → (x.run slots).2.get? j = slots.get? j

namespace Computes

variable {α β γ δ : Type} {R : α → β → Prop} {R' : γ → δ → Prop} {S T : List Nat}

theorem mono {x : Resolving α} {y : Except BuildError β} (hST : S ⊆ T) (h : Computes S R x y) :
    Computes T R x y := by
  intro slots hfree
  obtain ⟨houtcome, hframe⟩ := h slots fun i hi => hfree i (hST hi)
  exact ⟨houtcome, fun j hj => hframe j fun hS => hj (hST hS)⟩

theorem bind {x : Resolving α} {y : Except BuildError β} {f : α → Resolving γ}
    {g : β → Except BuildError δ} (h : Computes S R x y)
    (hf : ∀ a b, R a b → Computes T R' (f a) (g b)) (hST : (S ++ T).Nodup) :
    Computes (S ++ T) R' (x >>= f) (y >>= g) := by
  intro slots hfree
  obtain ⟨houtcome, hframe⟩ := h slots fun i hi => hfree i (List.mem_append_left T hi)
  rw [Resolving.run_bind]
  rcases hx : x.run slots with ⟨a | a, next⟩
  · rw [hx] at houtcome hframe
    cases y with
    | ok b => exact houtcome.elim
    | error e => exact ⟨houtcome, fun j hj => hframe j fun hS => hj (List.mem_append_left T hS)⟩
  · rw [hx] at houtcome hframe
    cases y with
    | error e => exact houtcome.elim
    | ok b =>
      -- what the first step used is not free any more, but the second one uses other slots
      have hnext : next.FreeAt T := by
        intro i hi
        have hiS : i ∉ S := fun hS => (List.nodup_append.mp hST).2.2 i hS i hi rfl
        rw [hframe i hiS]
        exact hfree i (List.mem_append_right S hi)
      obtain ⟨hsame, hrest⟩ := hf a b houtcome next hnext
      refine ⟨hsame, fun j hj => ?_⟩
      rw [List.mem_append, not_or] at hj
      rw [hrest j hj.2, hframe j hj.1]

theorem keep {slot : Nat} {x : Resolving Bound} {y : Except BuildError Bound}
    (h : Computes S (· = ·) x y) :
    Computes (slot :: S) (· = ·) (BindMonad.keep slot x) (BindMonad.keep slot y) := by
  intro slots hfree
  obtain ⟨houtcome, hframe⟩ := h slots fun i hi => hfree i (List.mem_cons_of_mem slot hi)
  rw [Resolving.run_keep x (hfree slot List.mem_cons_self)]
  rcases hx : x.run slots with ⟨a | a, next⟩
  · rw [hx] at houtcome hframe
    exact ⟨houtcome, fun j hj => hframe j fun hS => hj (List.mem_cons_of_mem slot hS)⟩
  · rw [hx] at houtcome hframe
    refine ⟨houtcome, fun j hj => ?_⟩
    rw [List.mem_cons, not_or] at hj
    rw [Slots.get?_fill_ne _ _ hj.1, hframe j hj.2]

end Computes

namespace Node

/-- The binding of a tree, without slots. -/
def meaning (env : BindEnv) (n : Node) : Except BuildError Bound := (n.task env).bind

end Node

/-- Binding with slots compared with binding without them. -/
def BindEnv.slotComparison (env : BindEnv) :
    Comparison Resolving (Except BuildError) env env where
  alike := .refl env
  rel := (· = ·)
  holds := Computes
  holds_pure h := fun _ _ => ⟨h, fun _ _ => rfl⟩
  holds_throw _ := fun _ _ => ⟨rfl, fun _ _ => rfl⟩
  holds_bind := Computes.bind
  holds_keep h _ := h.keep
  holds_mono := Computes.mono
  bounded := by
    rintro b _ rfl slots -
    by_cases hd : env.maxDepth < b.depth
    · rw [env.bounded_of_lt hd, env.bounded_of_lt hd]
      exact ⟨rfl, fun _ _ => rfl⟩
    · rw [Nat.not_lt] at hd
      rw [env.bounded_of_le hd, env.bounded_of_le hd]
      exact ⟨rfl, fun _ _ => rfl⟩
  finish h := by rw [h]
  ty_eq h := by rw [h]
  const _ _ := rfl
  param _ := Context.parameter?_rel fun _ _ _ => rfl
  this _ := rfl
  staticMember _ _ := rfl
  member h _ _ := by rw [h]
  staticCall _ _ ha _ := by
    rw [List.forall₂_eq_eq_eq] at ha
    rw [ha]
  call h _ _ ha _ := by
    rw [List.forall₂_eq_eq_eq] at ha
    rw [h, ha]
  index h _ ha _ := by
    rw [List.forall₂_eq_eq_eq] at ha
    rw [h, ha]
  implicit h _ _ := by rw [h]
  numeric h _ := by rw [h]
  negate h _ _ := by rw [h]
  binary h h' _ _ _ := by rw [h, h']

namespace Node

theorem resolve_computes (env : BindEnv) {n : Node} (hn : n.slots.Nodup) :
    Computes n.slots (· = ·) (n.resolve env) (n.meaning env) :=
  env.slotComparison.task n hn

/-- **Slots are transparent**: from free slots a tree is bound to its meaning. -/
theorem resolve_eq_meaning (env : BindEnv) {n : Node} {slots : Slots} (hn : n.slots.Nodup)
    (hfree : slots.FreeAt n.slots) : ((n.resolve env).run slots).1 = n.meaning env := by
  have h := (resolve_computes env hn slots hfree).1
  revert h
  cases ((n.resolve env).run slots).1 <;> cases n.meaning env <;> simp [SameOutcome]

end Node

end Formula
