import Formula.Binding
import Mathlib.Data.List.Forall2

/-!
# Chains of operands

The operands of a block and the operators between them are a `Chain`. `Chain.terms` splits it before
every operator other than `*`, `/` and `%`, and `Chain.bound` is how a chain is meant to be bound:
each term from left to right, the sign in front of the whole first one, and then the terms from left
to right.

Chains compare when their operators are the same and their operands compare (`Chain.Rel`). What
compares with the items of a chain, or with its terms, comes from a chain that compares with it
(`rel_of_items`, `rel_of_terms`).
-/

namespace Formula

/-- Operands with an operator before each but the first one. -/
structure Chain (α : Type) where
  first : α
  rest : List ((Mark × ArithOp) × α)

namespace Chain

variable {α β γ : Type}

/-- The operands of a chain. -/
def operands (c : Chain α) : List α := c.first :: c.rest.map (·.2)

/-- The operators and the operands of a chain in the order of the text. -/
def items (operator : Mark × ArithOp → β) (operand : α → β) (c : Chain α) : List β :=
  operand c.first :: c.rest.flatMap fun x => [operator x.1, operand x.2]

/-- The chain of terms: a term goes on for as long as its operators are `*`, `/` or `%`. -/
def termsFrom (first : α) : List ((Mark × ArithOp) × α) → Chain (Chain α)
  | [] => ⟨⟨first, []⟩, []⟩
  | (op, next) :: rest =>
    let terms := termsFrom next rest
    if (Operator.arith op.2).isMultiplicative then
      ⟨⟨first, (op, terms.first.first) :: terms.first.rest⟩, terms.rest⟩
    else ⟨⟨first, []⟩, (op, terms.first) :: terms.rest⟩

/-- The maximal terms of a chain. -/
def terms (c : Chain α) : Chain (Chain α) := termsFrom c.first c.rest

/-- Binds operands from left to right, each fully before the next one, and joins each to what stands
before it; a minus is that of the first one. -/
def fold (negative : Bool) (bind : α → Except BuildError Bound) (c : Chain α) :
    Except BuildError Bound := do
  let b ← bind c.first
  let b ← negateIf negative b
  c.rest.foldlM (fun acc x => do binaryBound x.1.2 acc (← bind x.2)) b

/-- The binding of a chain: products before all other operators, and a sign before the whole first
term. -/
def bound (negative : Bool) (bind : α → Except BuildError Bound) (c : Chain α) :
    Except BuildError Bound :=
  c.terms.fold negative fun term => term.fold false bind

/-! ## Items and terms -/

theorem map_items (f : β → γ) (operator : Mark × ArithOp → β) (operand : α → β)
    (c : Chain α) :
    (c.items operator operand).map f =
      c.items (fun op => f (operator op)) fun x => f (operand x) := by
  simp [items, List.map_flatMap]

theorem termsFrom_first (first : α) (rest : List ((Mark × ArithOp) × α)) :
    (termsFrom first rest).first.first = first := by
  cases rest with
  | nil => rfl
  | cons x rest =>
    simp only [termsFrom]
    split <;> rfl

/-- The operands of the terms are those of the chain. -/
theorem operands_terms (c : Chain α) : c.terms.operands.flatMap operands = c.operands := by
  obtain ⟨first, rest⟩ := c
  induction rest generalizing first with
  | nil => rfl
  | cons x rest ih =>
    obtain ⟨op, next⟩ := x
    have hnext := ih next
    simp only [terms, operands, List.flatMap_cons, List.cons_append, List.map_cons] at hnext ⊢
    rw [← hnext, termsFrom]
    split <;> simp [operands]

/-- A chain with no operator between terms is its only term. -/
theorem terms_of_single {c : Chain α} (h : c.terms.rest = []) : c.terms = ⟨c, []⟩ := by
  obtain ⟨first, rest⟩ := c
  induction rest generalizing first with
  | nil => rfl
  | cons x rest ih =>
    obtain ⟨op, next⟩ := x
    simp only [terms, termsFrom] at h ih ⊢
    split at h
    · rename_i hmul
      rw [if_pos hmul, ih next h]
    · simp at h

/-- The chain with a further operand. -/
def snoc (c : Chain α) (op : Mark × ArithOp) (x : α) : Chain α := ⟨c.first, c.rest ++ [(op, x)]⟩

theorem items_snoc (operator : Mark × ArithOp → β) (operand : α → β) (c : Chain α)
    (op : Mark × ArithOp) (x : α) : (c.snoc op x).items operator operand =
      c.items operator operand ++ [operator op, operand x] := by
  simp [snoc, items]

theorem forall_rest_snoc {P : (Mark × ArithOp) × α → Prop} {c : Chain α}
    {op : Mark × ArithOp} {x : α} :
    (∀ y ∈ (c.snoc op x).rest, P y) ↔ (∀ y ∈ c.rest, P y) ∧ P (op, x) := by
  simp only [snoc, List.forall_mem_append, List.forall_mem_singleton]

/-! ## Chains of chains -/

/-- A chain of chains as one chain. -/
def join (c : Chain (Chain α)) : Chain α :=
  ⟨c.first.first, c.first.rest ++ c.rest.flatMap fun x => (x.1, x.2.first) :: x.2.rest⟩

theorem items_join (operator : Mark × ArithOp → β) (operand : α → β) (c : Chain (Chain α)) :
    c.join.items operator operand =
      (c.items (fun op => [operator op]) (items operator operand)).flatten := by
  obtain ⟨⟨first, rest⟩, more⟩ := c
  induction more generalizing first rest with
  | nil => simp [join, items]
  | cons x more ih =>
    obtain ⟨op, next, rest'⟩ := x
    have hnext := ih next rest'
    simp only [join, items, List.flatMap_append, List.flatMap_cons, List.flatten_cons,
      List.cons_append, List.nil_append] at hnext ⊢
    rw [hnext]

/-- Before an operator that joins terms, the first operand is a term of its own. -/
theorem termsFrom_of_stop {more : List ((Mark × ArithOp) × α)}
    (hmore : ∀ x ∈ more.head?, (Operator.arith x.1.2).isMultiplicative = false) (first first' : α) :
    termsFrom first more = ⟨⟨first, []⟩, (termsFrom first' more).rest⟩ := by
  cases more with
  | nil => rfl
  | cons x more =>
    obtain ⟨op, next⟩ := x
    have hop : (Operator.arith op.2).isMultiplicative = false := hmore _ rfl
    simp only [termsFrom, hop, Bool.false_eq_true, if_false]

/-- A term goes on up to an operator that joins terms. -/
theorem termsFrom_append {rest more : List ((Mark × ArithOp) × α)}
    (hrest : ∀ x ∈ rest, (Operator.arith x.1.2).isMultiplicative = true)
    (hmore : ∀ x ∈ more.head?, (Operator.arith x.1.2).isMultiplicative = false) (first first' : α) :
    termsFrom first (rest ++ more) = ⟨⟨first, rest⟩, (termsFrom first' more).rest⟩ := by
  induction rest generalizing first with
  | nil => exact termsFrom_of_stop hmore first first'
  | cons x rest ih =>
    obtain ⟨op, next⟩ := x
    have hop := hrest _ List.mem_cons_self
    rw [List.cons_append, termsFrom, ih fun y hy => hrest y (List.mem_cons_of_mem _ hy)]
    simp only [hop, if_true]

/-- Chains with `*`, `/` or `%` inside, and other operators between them, are the terms of the
whole. -/
theorem terms_join {c : Chain (Chain α)}
    (hterms : ∀ term ∈ c.operands, ∀ x ∈ term.rest, (Operator.arith x.1.2).isMultiplicative = true)
    (hrest : ∀ x ∈ c.rest, (Operator.arith x.1.2).isMultiplicative = false) : c.join.terms = c := by
  obtain ⟨⟨first, rest⟩, more⟩ := c
  induction more generalizing first rest with
  | nil =>
    have hterm := hterms _ List.mem_cons_self
    have hstop : ∀ x ∈ ([] : List ((Mark × ArithOp) × α)).head?,
        (Operator.arith x.1.2).isMultiplicative = false := by simp
    simpa [terms, join, termsFrom] using termsFrom_append hterm hstop first first
  | cons x more ih =>
    obtain ⟨op, next, rest'⟩ := x
    have hterm := hterms _ List.mem_cons_self
    have hop := hrest _ List.mem_cons_self
    have hnext := ih next rest' (fun term hterm => hterms term (List.mem_cons_of_mem _ hterm))
      fun y hy => hrest y (List.mem_cons_of_mem _ hy)
    simp only [terms, join] at hnext
    simp only [terms, join, List.flatMap_cons, List.cons_append]
    rw [termsFrom_append hterm (by simpa using hop) first first]
    simp only [termsFrom, hop, Bool.false_eq_true, if_false, hnext]

/-! ## Chains that compare -/

/-- Chains with the same operators, whose operands compare one by one. -/
structure Rel (R : α → β → Prop) (c : Chain α) (d : Chain β) : Prop where
  first : R c.first d.first
  rest : List.Forall₂ (fun x y => x.1 = y.1 ∧ R x.2 y.2) c.rest d.rest

theorem Rel.imp {R R' : α → β → Prop} {c : Chain α} {d : Chain β} (h : c.Rel R d)
    (hR : ∀ a b, R a b → R' a b) : c.Rel R' d :=
  ⟨hR _ _ h.first, h.rest.imp fun _ _ hx => ⟨hx.1, hR _ _ hx.2⟩⟩

theorem Rel.operands {R : α → β → Prop} {c : Chain α} {d : Chain β} (h : c.Rel R d) :
    List.Forall₂ R c.operands d.operands := by
  refine .cons h.first (List.forall₂_map_left_iff.mpr (List.forall₂_map_right_iff.mpr ?_))
  exact h.rest.imp fun _ _ hx => hx.2

theorem Rel.and_left {P : α → Prop} {R : α → β → Prop} {c : Chain α} {d : Chain β} (h : c.Rel R d)
    (hP : ∀ x ∈ c.operands, P x) : c.Rel (fun x y => P x ∧ R x y) d := by
  refine ⟨⟨hP _ List.mem_cons_self, h.first⟩, ?_⟩
  have hrest : ∀ x ∈ c.rest, P x.2 := fun x hx =>
    hP x.2 (List.mem_cons_of_mem _ (List.mem_map_of_mem hx))
  exact ((List.forall₂_and_left _ _).mpr ⟨hrest, h.rest⟩).imp fun _ _ hx => ⟨hx.2.1, hx.1, hx.2.2⟩

/-- The terms of chains that compare do so. -/
theorem Rel.terms {R : α → β → Prop} {c : Chain α} {d : Chain β} (h : c.Rel R d) :
    c.terms.Rel (Rel R) d.terms := by
  obtain ⟨first, rest⟩ := c
  obtain ⟨first', rest'⟩ := d
  obtain ⟨hfirst, hrest⟩ := h
  simp only [Chain.terms] at hfirst hrest ⊢
  induction hrest generalizing first first' with
  | nil => exact ⟨⟨hfirst, .nil⟩, .nil⟩
  | @cons x y _ _ hx _ ih =>
    obtain ⟨op, next⟩ := x
    obtain ⟨op', next'⟩ := y
    obtain ⟨hop, hnext⟩ := hx
    cases hop
    have hmore := ih next next' hnext
    simp only [termsFrom]
    split
    · exact ⟨⟨hfirst, .cons ⟨rfl, hmore.first.first⟩ hmore.first.rest⟩, hmore.rest⟩
    · exact ⟨⟨hfirst, .nil⟩, .cons ⟨rfl, hmore.first⟩ hmore.rest⟩

/-- Between chains that compare in two steps there is a chain in the middle. -/
theorem Rel.split {P : α → β → Prop} {Q : β → γ → Prop} {c : Chain α} {e : Chain γ}
    (h : c.Rel (fun x z => ∃ y, P x y ∧ Q y z) e) : ∃ d, c.Rel P d ∧ Rel Q d e := by
  obtain ⟨first, rest⟩ := c
  obtain ⟨last, more⟩ := e
  obtain ⟨⟨y, hP, hQ⟩, hrest⟩ := h
  suffices hmiddle : ∃ ys : List ((Mark × ArithOp) × β),
      List.Forall₂ (fun x y => x.1 = y.1 ∧ P x.2 y.2) rest ys ∧
        List.Forall₂ (fun y z => y.1 = z.1 ∧ Q y.2 z.2) ys more by
    obtain ⟨ys, hP', hQ'⟩ := hmiddle
    exact ⟨⟨y, ys⟩, ⟨hP, hP'⟩, ⟨hQ, hQ'⟩⟩
  clear hP hQ
  dsimp only at hrest
  induction hrest with
  | nil => exact ⟨[], .nil, .nil⟩
  | @cons x z _ _ hx _ ih =>
    obtain ⟨hop, y', hP, hQ⟩ := hx
    obtain ⟨ys, hP', hQ'⟩ := ih
    exact ⟨(x.1, y') :: ys, .cons ⟨rfl, hP⟩ hP', .cons ⟨hop, hQ⟩ hQ'⟩

/-- What compares with the items of a chain is the items of a chain. -/
theorem rel_of_items {Q : β → γ → Prop} {operator : Mark × ArithOp → β} {operand : α → β}
    {operator' : Mark × ArithOp → γ} (hop : ∀ op z, Q (operator op) z → z = operator' op)
    {c : Chain α} {zs : List γ} (h : List.Forall₂ Q (c.items operator operand) zs) :
    ∃ d : Chain γ, zs = d.items operator' id ∧ c.Rel (fun x z => Q (operand x) z) d := by
  obtain ⟨first, rest⟩ := c
  obtain ⟨z, zs, hz, hzs, rfl⟩ := List.forall₂_cons_left_iff.mp h
  suffices hrest : ∃ more : List ((Mark × ArithOp) × γ),
      zs = more.flatMap (fun x => [operator' x.1, id x.2]) ∧
        List.Forall₂ (fun x y => x.1 = y.1 ∧ Q (operand x.2) y.2) rest more by
    obtain ⟨more, rfl, hmore⟩ := hrest
    exact ⟨⟨z, more⟩, rfl, ⟨hz, hmore⟩⟩
  clear h hz
  dsimp only at hzs
  induction rest generalizing zs with
  | nil =>
    cases List.forall₂_nil_left_iff.mp hzs
    exact ⟨[], rfl, .nil⟩
  | cons x rest ih =>
    obtain ⟨o, zs₁, ho, hzs₁, rfl⟩ := List.forall₂_cons_left_iff.mp hzs
    obtain ⟨z', zs₂, hz', hzs₂, rfl⟩ := List.forall₂_cons_left_iff.mp hzs₁
    obtain ⟨more, rfl, hmore⟩ := ih _ hzs₂
    exact ⟨(x.1, z') :: more, by simp [hop _ _ ho], .cons ⟨rfl, hz'⟩ hmore⟩

/-- What compares with the terms of a chain is the terms of a chain. -/
theorem rel_of_terms {R : α → β → Prop} {c : Chain α} {ts : Chain (Chain β)}
    (h : c.terms.Rel (Rel R) ts) : ∃ d, ts = d.terms ∧ c.Rel R d := by
  obtain ⟨first, rest⟩ := c
  induction rest generalizing first ts with
  | nil =>
    obtain ⟨⟨first', rest'⟩, more⟩ := ts
    obtain ⟨⟨hfirst, hrest⟩, hmore⟩ := h
    cases List.forall₂_nil_left_iff.mp hrest
    cases List.forall₂_nil_left_iff.mp hmore
    exact ⟨⟨first', []⟩, rfl, ⟨hfirst, .nil⟩⟩
  | cons x rest ih =>
    obtain ⟨op, next⟩ := x
    obtain ⟨⟨first', rest'⟩, more⟩ := ts
    by_cases hmul : (Operator.arith op.2).isMultiplicative = true
    · simp only [terms, termsFrom, hmul, if_true] at h
      obtain ⟨⟨hfirst, hrest⟩, hmore⟩ := h
      obtain ⟨⟨_, next'⟩, rest', ⟨rfl, hnext⟩, hrest', rfl⟩ := List.forall₂_cons_left_iff.mp hrest
      have hterms : (terms ⟨next, rest⟩).Rel (Rel R) ⟨⟨next', rest'⟩, more⟩ :=
        ⟨⟨hnext, hrest'⟩, hmore⟩
      obtain ⟨d, hd, hrel⟩ := ih next hterms
      refine ⟨⟨first', (op, d.first) :: d.rest⟩, ?_, ⟨hfirst, .cons ⟨rfl, hrel.first⟩ hrel.rest⟩⟩
      simp only [terms] at hd
      simp only [terms, termsFrom, ← hd, hmul, if_true]
    · simp only [terms, termsFrom, hmul, if_false, Bool.false_eq_true] at h
      obtain ⟨⟨hfirst, hrest⟩, hmore⟩ := h
      cases List.forall₂_nil_left_iff.mp hrest
      obtain ⟨⟨_, term⟩, more, ⟨rfl, hterm⟩, hmore', rfl⟩ := List.forall₂_cons_left_iff.mp hmore
      have hterms : (terms ⟨next, rest⟩).Rel (Rel R) ⟨term, more⟩ := ⟨hterm, hmore'⟩
      obtain ⟨d, hd, hrel⟩ := ih next hterms
      refine ⟨⟨first', (op, d.first) :: d.rest⟩, ?_, ⟨hfirst, .cons ⟨rfl, hrel.first⟩ hrel.rest⟩⟩
      simp only [terms] at hd
      simp only [terms, termsFrom, ← hd, hmul, if_false, Bool.false_eq_true]

/-! ## Binding -/

theorem fold_single (bind : α → Except BuildError Bound) (x : α) :
    fold false bind ⟨x, []⟩ = bind x := by
  unfold fold
  cases bind x <;> rfl

theorem fold_congr {f g : α → Except BuildError Bound} {c : Chain α}
    (h : ∀ x ∈ c.operands, f x = g x) (negative : Bool) :
    c.fold negative f = c.fold negative g := by
  obtain ⟨first, rest⟩ := c
  have hrest : ∀ x ∈ rest, f x.2 = g x.2 := fun x hx =>
    h x.2 (List.mem_cons_of_mem _ (List.mem_map_of_mem hx))
  simp only [fold, h first List.mem_cons_self]
  refine bind_congr fun b => bind_congr fun b => ?_
  clear h
  induction rest generalizing b with
  | nil => rfl
  | cons x rest ih =>
    rw [List.foldlM_cons, List.foldlM_cons, hrest x List.mem_cons_self]
    exact bind_congr fun b => ih (fun y hy => hrest y (List.mem_cons_of_mem x hy)) b

theorem bound_congr {f g : α → Except BuildError Bound} {c : Chain α}
    (h : ∀ x ∈ c.operands, f x = g x) (negative : Bool) :
    c.bound negative f = c.bound negative g := by
  refine fold_congr (fun term hterm => fold_congr (fun x hx => h x ?_) false) negative
  rw [← c.operands_terms]
  exact List.mem_flatMap.mpr ⟨term, hterm, hx⟩

end Chain

end Formula
