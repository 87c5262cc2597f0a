import Formula.Error

/-!
# Outcomes of steps that may fail

How a result or an error of two steps comes about, and when two outcomes compare.
-/

namespace Formula

namespace Except

variable {ε α β : Type} {x : Except ε α}

theorem bind_ok {f : α → Except ε β} {b : β} (h : x >>= f = .ok b) :
    ∃ a, x = .ok a ∧ f a = .ok b := by
  cases x with
  | error e => cases h
  | ok a => exact ⟨a, rfl, h⟩

theorem bind_error {f : α → Except ε β} {e : ε} (h : x >>= f = .error e) :
    x = .error e ∨ ∃ a, x = .ok a ∧ f a = .error e := by
  cases x with
  | error e' =>
    cases h
    exact .inl rfl
  | ok a => exact .inr ⟨a, rfl, h⟩

theorem map_ok {f : α → β} {b : β} (h : x.map f = .ok b) : ∃ a, x = .ok a ∧ f a = b := by
  cases x with
  | error e => cases h
  | ok a => exact ⟨a, rfl, Except.ok.inj h⟩

theorem map_error {f : α → β} {e : ε} (h : x.map f = .error e) : x = .error e := by
  cases x with
  | error e' =>
    cases h
    rfl
  | ok a => cases h

theorem toOption_eq_some {a : α} (h : x.toOption = some a) : x = .ok a := by
  cases x with
  | error e => cases h
  | ok b =>
    cases h
    rfl

theorem mapError_bind {ε' : Type} (g : ε → ε') (f : α → Except ε β) :
    (x >>= f).mapError g = x.mapError g >>= fun a => (f a).mapError g := by
  cases x <;> rfl

theorem mapError_map {ε' : Type} (g : ε → ε') (f : α → β) :
    (x.map f).mapError g = (x.mapError g).map f := by
  cases x <;> rfl

theorem toOption_mapError {ε' : Type} (g : ε → ε') : (x.mapError g).toOption = x.toOption := by
  cases x <;> rfl

theorem exists_ok {P : α → Prop} [DecidablePred P] (h : x.toOption.any (P ·) = true) :
    ∃ a, x = .ok a ∧ P a := by
  obtain ⟨a, ha, hP⟩ := (Option.any_eq_true _ _).mp h
  exact ⟨a, toOption_eq_some ha, of_decide_eq_true hP⟩

theorem exists_error (h : x.toOption = none) : ∃ e, x = .error e := by
  cases x with
  | error e => exact ⟨e, rfl⟩
  | ok a => cases h

/-- The error of an outcome. -/
def error? : Except ε α → Option ε
  | .error e => some e
  | .ok _ => none

theorem error?_eq_some {e : ε} (h : error? x = some e) : x = .error e := by
  cases x with
  | error e' =>
    cases h
    rfl
  | ok a => cases h

theorem ofExcept_eq (x : Except ε α) : (ofExcept x : Except ε α) = x := by
  cases x <;> rfl

/-- The outcome `x` is `y`, unless it is an error with `E`. -/
def Unless (E : ε → Prop) (x y : Except ε α) : Prop := (∃ e, E e ∧ x = .error e) ∨ x = y

namespace Unless

variable {E : ε → Prop} {y : Except ε α}

theorem refl (x : Except ε α) : Unless E x x := .inr rfl

theorem error {e : ε} (h : E e) (y : Except ε α) : Unless E (.error e) y := .inl ⟨e, h, rfl⟩

theorem mono {E' : ε → Prop} (h : Unless E x y) (hE : ∀ e, E e → E' e) : Unless E' x y :=
  h.imp_left fun ⟨e, he, hx⟩ => ⟨e, hE e he, hx⟩

theorem bind {f g : α → Except ε β} (h : Unless E x y) (hf : ∀ a, Unless E (f a) (g a)) :
    Unless E (x >>= f) (y >>= g) := by
  rcases h with ⟨e, he, rfl⟩ | rfl
  · exact error he _
  · cases x with
    | error e => exact refl _
    | ok a => exact hf a

theorem map (h : Unless E x y) (f : α → β) : Unless E (x.map f) (y.map f) := by
  rcases h with ⟨e, he, rfl⟩ | rfl
  · exact error he _
  · exact refl _

/-- A result is kept. -/
theorem ok {a : α} (h : Unless E x y) (hx : x = .ok a) : y = .ok a := by
  rcases h with ⟨e, -, rfl⟩ | rfl
  · cases hx
  · exact hx

/-- An error that is not excused is kept. -/
theorem error_of {e : ε} (h : Unless E x y) (hx : x = .error e) (he : ¬ E e) : y = .error e := by
  rcases h with ⟨e', he', hx'⟩ | rfl
  · cases hx.symm.trans hx'
    exact (he he').elim
  · exact hx

end Unless

end Except

/-- Two outcomes: the same error, or results that compare. -/
def SameOutcome {ε α β : Type} (R : α → β → Prop) : Except ε α → Except ε β → Prop
  | .ok a, .ok b => R a b
  | .error e, .error e' => e = e'
  | _, _ => False

namespace SameOutcome

variable {ε α β γ δ : Type} {R : α → β → Prop} {R' : γ → δ → Prop} {x : Except ε α} {y : Except ε β}

theorem eq {x y : Except ε α} (h : SameOutcome (· = ·) x y) : x = y := by
  cases x <;> cases y <;> simp_all [SameOutcome]

/-- Results that are made of others, and errors that are the same. -/
theorem eq_map {f : α → β} {P : α → Prop} (h : SameOutcome (fun a b => b = f a ∧ P a) x y) :
    y = x.map f ∧ ∀ a, x = .ok a → P a := by
  cases x with
  | error e =>
    cases y with
    | error e' =>
      cases h
      exact ⟨rfl, nofun⟩
    | ok b => exact h.elim
  | ok a =>
    cases y with
    | error e' => exact h.elim
    | ok b =>
      obtain ⟨rfl, hP⟩ := h
      refine ⟨rfl, fun a' ha => ?_⟩
      cases ha
      exact hP

theorem bind {f : α → Except ε γ} {g : β → Except ε δ} (h : SameOutcome R x y)
    (hf : ∀ a b, R a b → SameOutcome R' (f a) (g b)) : SameOutcome R' (x >>= f) (y >>= g) := by
  cases x with
  | error e =>
    cases y with
    | error e' => exact h
    | ok b => exact h.elim
  | ok a =>
    cases y with
    | error e' => exact h.elim
    | ok b => exact hf a b h

theorem map {f : α → γ} {g : β → δ} (h : SameOutcome R x y) (hf : ∀ a b, R a b → R' (f a) (g b)) :
    SameOutcome R' (x.map f) (y.map g) := by
  cases x with
  | error e =>
    cases y with
    | error e' => exact h
    | ok b => exact h.elim
  | ok a =>
    cases y with
    | error e' => exact h.elim
    | ok b => exact hf a b h

/-- A result compares with a result. -/
theorem ok {a : α} (h : SameOutcome R x y) (hx : x = .ok a) : ∃ b, y = .ok b ∧ R a b := by
  subst hx
  cases y with
  | error e => exact h.elim
  | ok b => exact ⟨b, rfl, h⟩

end SameOutcome

end Formula
