import Formula.Operator

/-!
# The grammar of blocks

The elements of a block are tokens: operators, types in parentheses that may be casts, and all other
items. `IsExpr` is the grammar of blocks:

* an expression is an operand, perhaps after a sign, and further operands after operators;
* an operand is an item, an expression between bars, or a cast;
* a cast is a type in parentheses with an item or a cast after it, and perhaps a sign in between.

`run` reads tokens from left to right and knows only what may come next and how many bars are open.
It accepts the expressions and nothing else (`isExpr_iff_accepts`).
-/

namespace Formula.Grammar

/-- An element of a block, as far as the grammar tells elements apart. -/
inductive Token where
  | item
  | type
  | op (o : Operator)
deriving Repr, DecidableEq

mutual

/-- A cast: a type, perhaps a sign, and the operand of the cast. -/
inductive IsCast : List Token → Prop
  | unsigned {ts : List Token} : IsCastOperand ts → IsCast (.type :: ts)
  | signed {o : Operator} {ts : List Token} :
    o.isSign = true → IsCastOperand ts → IsCast (.type :: .op o :: ts)

/-- The operand of a cast: an item or a cast. -/
inductive IsCastOperand : List Token → Prop
  | item : IsCastOperand [.item]
  | cast {ts : List Token} : IsCast ts → IsCastOperand ts

end

mutual

/-- An expression: an operand, perhaps after a sign, and what follows it. -/
inductive IsExpr : List Token → Prop
  | unsigned {ts us : List Token} : IsOperand ts → IsTail us → IsExpr (ts ++ us)
  | signed {o : Operator} {ts us : List Token} :
    o.isSign = true → IsOperand ts → IsTail us → IsExpr (.op o :: (ts ++ us))

/-- Further operands, each after an operator. -/
inductive IsTail : List Token → Prop
  | nil : IsTail []
  | cons {ts us : List Token} (op : ArithOp) :
    IsOperand ts → IsTail us → IsTail (.op (.arith op) :: (ts ++ us))

/-- An operand: an item, an expression between bars, or a cast. -/
inductive IsOperand : List Token → Prop
  | item : IsOperand [.item]
  | bars {ts : List Token} : IsExpr ts → IsOperand (.op .bar :: (ts ++ [.op .bar]))
  | cast {ts : List Token} : IsCast ts → IsOperand ts

end

/-! ## Reading from left to right -/

/-- What may come next: an operand with or without a sign, an operator, or the operand of a cast
with or without a sign. -/
inductive Expects where
  | start
  | operand
  | operator
  | castStart
  | castOperand
deriving Repr, DecidableEq

/-- What may come after a token other than a bar. -/
def Expects.next : Expects → Token → Option Expects
  | .operator, .op (.arith _) => some .operand
  | .operator, _ => none
  | _, .item => some .operator
  | _, .type => some .castStart
  | .start, .op o => if o.isSign then some .operand else none
  | .castStart, .op o => if o.isSign then some .castOperand else none
  | _, .op _ => none

/-- What may come after a token, and how many bars are open then. A bar opens an expression where an
operand may come, and closes one behind an operand. -/
def move (c : Expects × Nat) (t : Token) : Option (Expects × Nat) :=
  match t, c.1, c.2 with
  | .op .bar, .start, k | .op .bar, .operand, k => some (.start, k + 1)
  | .op .bar, .operator, k + 1 => some (.operator, k)
  | t, e, k => (e.next t).map (·, k)

/-- Reads tokens. -/
def run (c : Expects × Nat) (ts : List Token) : Option (Expects × Nat) := ts.foldlM move c

/-- What is read from here on completes the expression. -/
def Accepts (c : Expects × Nat) (ts : List Token) : Prop := run c ts = some (.operator, 0)

theorem run_cons (c : Expects × Nat) (t : Token) (ts : List Token) :
    run c (t :: ts) = (move c t).bind (run · ts) := by
  simp [run, Option.bind_eq_bind]

theorem run_append (c : Expects × Nat) (ts us : List Token) :
    run c (ts ++ us) = (run c ts).bind (run · us) := by
  simp [run, List.foldlM_append, Option.bind_eq_bind]

variable {e : Expects} {o : Operator} {ts : List Token}

theorem move_type (he : e ≠ .operator) (k : Nat) : move (e, k) .type = some (.castStart, k) := by
  cases e <;> first | rfl | exact (he rfl).elim

theorem move_sign (ho : o.isSign = true) (k : Nat) :
    move (.start, k) (.op o) = some (.operand, k) := by
  rcases o with (_ | _ | _ | _ | _ | _) | _ <;> first | rfl | simp [Operator.isSign] at ho

theorem move_castSign (ho : o.isSign = true) (k : Nat) :
    move (.castStart, k) (.op o) = some (.castOperand, k) := by
  rcases o with (_ | _ | _ | _ | _ | _) | _ <;> first | rfl | simp [Operator.isSign] at ho

/-! ## Expressions are accepted -/

mutual

theorem IsCast.run_eq {ts : List Token} : IsCast ts → ∀ e k, e ≠ .operator →
    run (e, k) ts = some (.operator, k)
  | .unsigned h, e, k, he => by
    rw [run_cons, move_type he, Option.bind_some]
    exact h.run_eq .castStart k (.inl rfl)
  | .signed ho h, e, k, he => by
    rw [run_cons, move_type he, Option.bind_some, run_cons, move_castSign ho, Option.bind_some]
    exact h.run_eq .castOperand k (.inr rfl)

theorem IsCastOperand.run_eq {ts : List Token} : IsCastOperand ts → ∀ e k,
    e = .castStart ∨ e = .castOperand → run (e, k) ts = some (.operator, k)
  | .item, e, k, he => by rcases he with rfl | rfl <;> rfl
  | .cast h, e, k, he => h.run_eq e k (by rcases he with rfl | rfl <;> simp)

end

mutual

theorem IsExpr.run_eq {ts : List Token} : IsExpr ts → ∀ k, run (.start, k) ts = some (.operator, k)
  | .unsigned h h', k => by
    rw [run_append, h.run_eq .start k (.inl rfl), Option.bind_some]
    exact h'.run_eq k
  | .signed ho h h', k => by
    rw [run_cons, move_sign ho, Option.bind_some, run_append, h.run_eq .operand k (.inr rfl),
      Option.bind_some]
    exact h'.run_eq k

theorem IsTail.run_eq {ts : List Token} : IsTail ts → ∀ k,
    run (.operator, k) ts = some (.operator, k)
  | .nil, k => rfl
  | .cons op h h', k => by
    have hop : move (.operator, k) (.op (.arith op)) = some (.operand, k) := by cases k <;> rfl
    rw [run_cons, hop, Option.bind_some, run_append, h.run_eq .operand k (.inr rfl),
      Option.bind_some]
    exact h'.run_eq k

theorem IsOperand.run_eq {ts : List Token} : IsOperand ts → ∀ e k, e = .start ∨ e = .operand →
    run (e, k) ts = some (.operator, k)
  | .item, e, k, he => by rcases he with rfl | rfl <;> rfl
  | .bars h, e, k, he => by
    have hopen : move (e, k) (.op .bar) = some (.start, k + 1) := by
      rcases he with rfl | rfl <;> rfl
    rw [run_cons, hopen, Option.bind_some, run_append, h.run_eq (k + 1)]
    rfl
  | .cast h, e, k, he => h.run_eq e k (by rcases he with rfl | rfl <;> simp)

end

/-! ## What is accepted is an expression -/

/-- The tokens that complete an expression from where something is expected. -/
def Completes : Expects → List Token → Prop
  | .start, ts => IsExpr ts
  | .operand, ts => ∃ us vs, ts = us ++ vs ∧ IsOperand us ∧ IsTail vs
  | .operator, ts => IsTail ts
  | .castStart, ts => ∃ us vs, ts = us ++ vs ∧ IsCast (.type :: us) ∧ IsTail vs
  | .castOperand, ts => ∃ us vs, ts = us ++ vs ∧ IsCastOperand us ∧ IsTail vs

theorem Completes.item (he : e ≠ .operator) (h : IsTail ts) : Completes e (.item :: ts) := by
  cases e with
  | start => exact .unsigned .item h
  | operand => exact ⟨[.item], ts, rfl, .item, h⟩
  | operator => exact (he rfl).elim
  | castStart => exact ⟨[.item], ts, rfl, .unsigned .item, h⟩
  | castOperand => exact ⟨[.item], ts, rfl, .item, h⟩

theorem Completes.type (he : e ≠ .operator) (h : Completes .castStart ts) :
    Completes e (.type :: ts) := by
  obtain ⟨us, vs, rfl, hus, hvs⟩ := h
  cases e with
  | start => exact .unsigned (.cast hus) hvs
  | operand => exact ⟨.type :: us, vs, rfl, .cast hus, hvs⟩
  | operator => exact (he rfl).elim
  | castStart => exact ⟨.type :: us, vs, rfl, .unsigned (.cast hus), hvs⟩
  | castOperand => exact ⟨.type :: us, vs, rfl, .cast hus, hvs⟩

/-- A token before what completes an expression. -/
theorem Completes.cons {e' : Expects} {t : Token} (h : e.next t = some e') (hts : Completes e' ts) :
    Completes e (t :: ts) := by
  cases t with
  | item =>
    cases e <;> cases h <;> exact .item (by simp) hts
  | type =>
    cases e <;> cases h <;> exact .type (by simp) hts
  | op o =>
    cases e with
    | start =>
      simp only [Expects.next] at h
      split at h
      · rename_i ho
        cases h
        obtain ⟨us, vs, rfl, hus, hvs⟩ := hts
        exact .signed ho hus hvs
      · cases h
    | operand => cases h
    | operator =>
      cases o with
      | bar => cases h
      | arith op =>
        cases h
        obtain ⟨us, vs, rfl, hus, hvs⟩ := hts
        exact .cons op hus hvs
    | castStart =>
      simp only [Expects.next] at h
      split at h
      · rename_i ho
        cases h
        obtain ⟨us, vs, rfl, hus, hvs⟩ := hts
        exact ⟨.op o :: us, vs, rfl, .signed ho hus, hvs⟩
      · cases h
    | castOperand => cases h

/-- After an expression either all is read, or a bar closes it and the rest is accepted. -/
def Closes (k : Nat) (ts : List Token) : Prop :=
  ts = [] ∧ k = 0 ∨ ∃ k' us, ts = .op .bar :: us ∧ k = k' + 1 ∧ Accepts (.operator, k') us

/-- A step is one over a token other than a bar, or a bar opens or closes an expression. -/
theorem move_cases {k : Nat} {t : Token} {c : Expects × Nat} (h : move (e, k) t = some c) :
    (∃ e', e.next t = some e' ∧ c = (e', k)) ∨
      t = .op .bar ∧ (e = .start ∨ e = .operand) ∧ c = (.start, k + 1) ∨
      t = .op .bar ∧ e = .operator ∧ ∃ k', k = k' + 1 ∧ c = (.operator, k') := by
  simp only [move] at h
  split at h
  · cases h
    exact .inr (.inl ⟨rfl, .inl rfl, rfl⟩)
  · cases h
    exact .inr (.inl ⟨rfl, .inr rfl, rfl⟩)
  · cases h
    exact .inr (.inr ⟨rfl, rfl, _, rfl, rfl⟩)
  · obtain ⟨e', he', rfl⟩ := Option.map_eq_some_iff.mp h
    exact .inl ⟨e', he', rfl⟩

/-- What is accepted starts with what completes the expression, up to its closing bar. -/
theorem Accepts.split : ∀ {ts : List Token} {e : Expects} {k : Nat}, Accepts (e, k) ts →
    ∃ us vs, ts = us ++ vs ∧ Completes e us ∧ Closes k vs
  | [], e, k, h => by
    cases h
    exact ⟨[], [], rfl, .nil, .inl ⟨rfl, rfl⟩⟩
  | t :: ts, e, k, h => by
    unfold Accepts at h
    rw [run_cons] at h
    obtain ⟨c, hc, hrun⟩ := Option.bind_eq_some_iff.mp h
    rcases move_cases hc with ⟨e', he', rfl⟩ | ⟨rfl, he, rfl⟩ | ⟨rfl, rfl, k', rfl, rfl⟩
    · obtain ⟨us, vs, rfl, hus, hvs⟩ := Accepts.split hrun
      exact ⟨t :: us, vs, rfl, hus.cons he', hvs⟩
    · -- the expression between the bars, and what follows the closing one
      obtain ⟨us, vs, rfl, hus, hvs⟩ := Accepts.split hrun
      rcases hvs with ⟨-, hk⟩ | ⟨k', vs, rfl, hk, hvs⟩
      · simp at hk
      · cases hk
        obtain ⟨us', vs', rfl, hus', hvs'⟩ := Accepts.split hvs
        refine ⟨.op .bar :: (us ++ [.op .bar]) ++ us', vs', by simp, ?_, hvs'⟩
        rcases he with rfl | rfl
        · exact .unsigned (.bars hus) hus'
        · exact ⟨_, _, rfl, .bars hus, hus'⟩
    · exact ⟨[], .op .bar :: ts, rfl, .nil, .inr ⟨k', ts, rfl, rfl, hrun⟩⟩
termination_by ts => ts.length

/-- **The reader of tokens accepts exactly the expressions.** -/
theorem isExpr_iff_accepts (ts : List Token) : IsExpr ts ↔ Accepts (.start, 0) ts := by
  refine ⟨fun h => h.run_eq 0, fun h => ?_⟩
  obtain ⟨us, vs, rfl, hus, ⟨rfl, -⟩ | ⟨k', vs, -, hk, -⟩⟩ := h.split
  · rw [List.append_nil]
    exact hus
  · simp at hk

/-! ## Steps of an accepting run -/

theorem accepts_nil {k : Nat} : Accepts (e, k) [] ↔ e = .operator ∧ k = 0 := by
  simp [Accepts, run]

theorem accepts_cons {c : Expects × Nat} {t : Token} :
    Accepts c (t :: ts) ↔ ∃ c', move c t = some c' ∧ Accepts c' ts := by
  unfold Accepts
  rw [run_cons, Option.bind_eq_some_iff]

/-- A token other than a bar leaves the open bars alone. -/
theorem accepts_cons_of_ne {k : Nat} {t : Token} (ht : t ≠ .op .bar) :
    Accepts (e, k) (t :: ts) ↔ ∃ e', e.next t = some e' ∧ Accepts (e', k) ts := by
  rw [accepts_cons]
  constructor
  · rintro ⟨c, hc, h⟩
    rcases move_cases hc with ⟨e', he', rfl⟩ | ⟨rfl, -⟩ | ⟨rfl, -⟩
    · exact ⟨e', he', h⟩
    · exact (ht rfl).elim
    · exact (ht rfl).elim
  · rintro ⟨e', he', h⟩
    refine ⟨(e', k), ?_, h⟩
    cases t with
    | item => simp [move, he']
    | type => simp [move, he']
    | op o =>
      cases o with
      | arith op => simp [move, he']
      | bar => exact (ht rfl).elim

theorem accepts_bar_open {k : Nat} (he : e = .start ∨ e = .operand) :
    Accepts (e, k) (.op .bar :: ts) ↔ Accepts (.start, k + 1) ts := by
  have hmove : move (e, k) (.op .bar) = some (.start, k + 1) := by rcases he with rfl | rfl <;> rfl
  simp [accepts_cons, hmove]

theorem accepts_bar_close {k : Nat} :
    Accepts (.operator, k) (.op .bar :: ts) ↔ ∃ k', k = k' + 1 ∧ Accepts (.operator, k') ts := by
  rw [accepts_cons]
  cases k with
  | zero => simp [move, Expects.next]
  | succ k => simp [move]

theorem accepts_item {k : Nat} :
    Accepts (e, k) (.item :: ts) ↔ e ≠ .operator ∧ Accepts (.operator, k) ts := by
  rw [accepts_cons_of_ne (by simp)]
  cases e <;> simp [Expects.next]

theorem accepts_type {k : Nat} :
    Accepts (e, k) (.type :: ts) ↔ e ≠ .operator ∧ Accepts (.castStart, k) ts := by
  rw [accepts_cons_of_ne (by simp)]
  cases e <;> simp [Expects.next]

/-! ## Reading without bars -/

/-- Reads tokens of which none is a bar. -/
def reads (e : Expects) (ts : List Token) : Option Expects := ts.foldlM Expects.next e

theorem reads_append (e : Expects) (ts us : List Token) :
    reads e (ts ++ us) = (reads e ts).bind (reads · us) := by
  simp [reads, List.foldlM_append, Option.bind_eq_bind]

theorem reads_cons (e : Expects) (t : Token) (ts : List Token) :
    reads e (t :: ts) = (e.next t).bind (reads · ts) := by
  simp [reads, Option.bind_eq_bind]

/-- Without bars, accepting is reading up to where an operator may come. -/
theorem accepts_iff_reads {k : Nat} (hts : .op .bar ∉ ts) :
    Accepts (e, k) ts ↔ reads e ts = some .operator ∧ k = 0 := by
  induction ts generalizing e with
  | nil => simp [accepts_nil, reads]
  | cons t ts ih =>
    rw [List.mem_cons, not_or] at hts
    rw [accepts_cons_of_ne (Ne.symm hts.1), reads_cons, Option.bind_eq_some_iff]
    constructor
    · rintro ⟨e', he', h⟩
      obtain ⟨hreads, hk⟩ := (ih hts.2).mp h
      exact ⟨⟨e', he', hreads⟩, hk⟩
    · rintro ⟨⟨e', he', hreads⟩, hk⟩
      exact ⟨e', he', (ih hts.2).mpr ⟨hreads, hk⟩⟩

theorem isExpr_iff_reads (hts : .op .bar ∉ ts) : IsExpr ts ↔ reads .start ts = some .operator := by
  rw [isExpr_iff_accepts, accepts_iff_reads hts]
  simp

/-- Whether something is expected inside a cast. -/
def Expects.inCast : Expects → Bool
  | .castStart | .castOperand => true
  | _ => false

/-- Outside casts an item leads to an operator, and an operator to an operand. -/
theorem next_cases {e' : Expects} {t : Token} (ht : t ≠ .type) (he : e.inCast = false)
    (h : e.next t = some e') :
    t = .item ∧ e ≠ .operator ∧ e' = .operator ∨ t ≠ .item ∧ e' = .operand := by
  cases t with
  | item => cases e <;> cases h <;> exact .inl ⟨rfl, by simp, rfl⟩
  | type => exact (ht rfl).elim
  | op o =>
    refine .inr ⟨by simp, ?_⟩
    cases e with
    | start =>
      simp only [Expects.next] at h
      split at h
      · cases h
        rfl
      · cases h
    | operand => cases h
    | operator =>
      cases o with
      | arith op =>
        cases h
        rfl
      | bar => cases h
    | castStart => cases he
    | castOperand => cases he

/-- Without types, reading gets into no cast. -/
theorem reads_inCast {e' : Expects} (hts : .type ∉ ts) (he : e.inCast = false)
    (h : reads e ts = some e') : e'.inCast = false := by
  induction ts generalizing e with
  | nil =>
    cases h
    exact he
  | cons t ts ih =>
    rw [List.mem_cons, not_or] at hts
    rw [reads_cons] at h
    obtain ⟨e₁, h₁, h⟩ := Option.bind_eq_some_iff.mp h
    refine ih hts.2 ?_ h
    rcases next_cases (Ne.symm hts.1) he h₁ with ⟨-, -, rfl⟩ | ⟨-, rfl⟩ <;> rfl

theorem reads_snoc {e' : Expects} {t : Token} :
    reads e (ts ++ [t]) = some e' ↔ ∃ e₁, reads e ts = some e₁ ∧ e₁.next t = some e' := by
  rw [reads_append, Option.bind_eq_some_iff]
  simp [reads]

end Formula.Grammar
