import Formula.Proofs.ReadingProgress

/-!
# Texts that are read alike

Two texts can be told apart by what stands in them or by where they stand. `Cursor.Alike F` if
cursors that compare by `F` are not told apart by names, blanks and the marks of type arguments:
then type arguments are read alike (`Cursor.Alike.typeArguments?`).
-/

namespace Formula

/-! ## Repetition -/

section

variable {ε σ α : Type} {size : σ → Nat} {step : σ → Except ε (Option (α × σ))}

/-- Repetition as a first step and the rest. -/
theorem many_eq (size : σ → Nat) (step : σ → Except ε (Option (α × σ))) (s : σ) :
    many size step s = step s >>= fun
      | none => .ok ([], s)
      | some (a, t) =>
        if size t < size s then many size step t >>= fun (as, u) => .ok (a :: as, u)
          else .ok ([a], t) := by
  rw [many]
  rcases step s with e | _ | ⟨a, t⟩
  · rfl
  · rfl
  · show (if size t < size s then _ else _) = if size t < size s then _ else _
    rcases many size step t with e | ⟨as, u⟩ <;> rfl

/-- Repetition from starts that compare, of a step that has the same outcome from such. -/
theorem many_same {F : σ → σ → Prop}
    (hsize : ∀ {s t s' t'}, F s s' → F t t' → (size t' < size s' ↔ size t < size s))
    (hstep : ∀ s s', F s s' →
      SameOutcome (Option.Rel fun x y => y.1 = x.1 ∧ F x.2 y.2) (step s) (step s'))
    {s s' : σ} (hs : F s s') :
    SameOutcome (fun x y => y.1 = x.1 ∧ F x.2 y.2) (many size step s) (many size step s') := by
  induction hn : size s using Nat.strongRecOn generalizing s s' with
  | ind n ih =>
    rw [many_eq, many_eq]
    refine (hstep s s' hs).bind fun x y hxy => ?_
    cases hxy with
    | none => exact ⟨rfl, hs⟩
    | @some x y h =>
      obtain ⟨a, t⟩ := x
      obtain ⟨a', t'⟩ := y
      obtain ⟨rfl, ht⟩ := h
      simp only [hsize hs ht]
      split
      · rename_i hlt
        refine (ih (size t) (hn ▸ hlt) ht rfl).bind fun (as, u) (as', u') hu => ?_
        obtain ⟨rfl, hu⟩ := hu
        exact ⟨rfl, hu⟩
      · exact ⟨rfl, ht⟩

end

theorem Probing.Forward.many_cons {α : Type} {step : Probing α} (hf : step.Forward) {r s t : Reader}
    {a : α} {as : List α} (h : step r = .ok (some (a, s)))
    (hs : Formula.many Reader.size step s = .ok (as, t)) :
    Formula.many Reader.size step r = .ok (a :: as, t) := by
  have hlt : s.size < r.size := (hf r a s h).2
  rw [many_eq, h]
  show (if s.size < r.size then _ else _) = _
  rw [if_pos hlt, hs]
  rfl

/-- Lists that look the same, each in its own view, are both empty or neither. -/
theorem isEmpty_of_views {α β : Type} {f g : α → β} {as as' : List α} (h : as'.map g = as.map f) :
    as'.isEmpty = as.isEmpty := by
  rw [← List.isEmpty_map (f := g), h, List.isEmpty_map]

/-! ## Type arguments -/

/-- The same result, with cursors that compare. -/
abbrev SameResult (F : Cursor → Cursor → Prop) {α : Type} (x y : α × Cursor) : Prop :=
  y.1 = x.1 ∧ F x.2 y.2

/-- The characters that open, close and separate type arguments. -/
def typeMarks : List Char := ['<', '>', ',']

/-- Cursors before texts that names, blanks and the marks of type arguments do not tell apart. -/
structure Cursor.Alike (F : Cursor → Cursor → Prop) : Prop where
  skipBlanks {c c' : Cursor} : F c c' → F c.skipBlanks c'.skipBlanks
  sees_eq {c c' : Cursor} {x : Char} : F c c' → x ∈ typeMarks → c'.sees x = c.sees x
  next_of_sees {c c' : Cursor} {x : Char} : F c c' → x ∈ typeMarks → c.sees x = true →
    F c.next c'.next
  seesDotName_eq {c c' : Cursor} : F c c' → c'.seesDotName = c.seesDotName
  next_of_seesDotName {c c' : Cursor} : F c c' → c.seesDotName = true → F c.next c'.next
  name? {c c' : Cursor} : F c c' → Option.Rel (SameResult F) c.name? c'.name?
  length_lt_iff {c c' d d' : Cursor} : F c c' → F d d' →
    (d'.rest.length < c'.rest.length ↔ d.rest.length < c.rest.length)

namespace Cursor.Alike

variable {F : Cursor → Cursor → Prop} (A : Cursor.Alike F) {c c' : Cursor}

include A

theorem many {ε α : Type} {step : Cursor → Except ε (Option (α × Cursor))}
    (hstep : ∀ c c', F c c' → SameOutcome (Option.Rel (SameResult F)) (step c) (step c'))
    (h : F c c') :
    SameOutcome (SameResult F) (Formula.many (·.rest.length) step c)
      (Formula.many (·.rest.length) step c') := by
  refine many_same (fun {s t s' t'} hs ht => ?_) hstep h
  exact A.length_lt_iff hs ht

theorem readTypeName {list : Cursor → Except ListFault (List TypeName × Cursor)}
    (hlist : ∀ c c', c.sees '<' = true → F c c' → SameOutcome (SameResult F) (list c) (list c'))
    (h : F c c') : SameOutcome (SameResult F) (readTypeName list c) (readTypeName list c') := by
  unfold Formula.readTypeName
  have hname := A.name? h
  generalize c.name? = name, c'.name? = name' at hname
  cases hname with
  | none => exact rfl
  | @some x y hname =>
    obtain ⟨_, c₁⟩ := x
    obtain ⟨first, c₁'⟩ := y
    obtain ⟨rfl, h₁⟩ := hname
    have hdots :
        SameOutcome (SameResult F) (Formula.many (·.rest.length) dotName c₁ : Except ListFault _)
        (Formula.many (·.rest.length) dotName c₁') := by
      refine A.many (fun c c' h => ?_) h₁
      unfold dotName
      rw [A.seesDotName_eq h]
      split
      · rename_i hdot
        exact A.name? (A.next_of_seesDotName h hdot)
      · exact .none
    refine hdots.bind fun (_, c₂) (names, c₂') h₂ => ?_
    obtain ⟨rfl, h₂⟩ := h₂
    simp only
    rw [A.sees_eq h₂ (by decide)]
    split
    · rename_i hopen
      refine (hlist _ _ hopen h₂).bind fun (_, c₃) (args, c₃') h₃ => ?_
      obtain ⟨rfl, h₃⟩ := h₃
      simp only
      split
      · exact ⟨rfl, h₃⟩
      · exact rfl
    · show SameOutcome _ (Except.ok ([], c₂) >>= _) (Except.ok ([], c₂') >>= _)
      simp only [bind, Except.bind]
      split
      · exact ⟨rfl, h₂⟩
      · exact rfl

theorem readTypeList (room : Nat) (hc : c.sees '<' = true) (h : F c c') :
    SameOutcome (SameResult F) (readTypeList room c) (readTypeList room c') := by
  induction room generalizing c c' with
  | zero => exact rfl
  | succ room ih =>
    have hentry : ∀ c c' : Cursor, F c c' → SameOutcome (SameResult F)
        (Formula.readTypeName (Formula.readTypeList room) c.skipBlanks)
        (Formula.readTypeName (Formula.readTypeList room) c'.skipBlanks) :=
      fun c c' h => A.readTypeName (fun _ _ => ih) (A.skipBlanks h)
    refine (hentry _ _ (A.next_of_sees h (by decide) hc)).bind fun (_, c₁) (first, c₁') h₁ => ?_
    obtain ⟨rfl, h₁⟩ := h₁
    refine (A.many (fun c c' h => ?_) h₁).bind fun (_, c₂) (others, c₂') h₂ => ?_
    · rw [A.sees_eq (A.skipBlanks h) (by decide)]
      split
      · rename_i hcomma
        exact (hentry _ _ (A.next_of_sees (A.skipBlanks h) (by decide) hcomma)).map
          fun _ _ h => .some h
      · exact .none
    · obtain ⟨rfl, h₂⟩ := h₂
      simp only
      rw [A.sees_eq (A.skipBlanks h₂) (by decide)]
      split
      · rename_i hclose
        exact ⟨rfl, A.next_of_sees (A.skipBlanks h₂) (by decide) hclose⟩
      · exact rfl

theorem typeArguments? (limit room : Nat) (h : F c c') :
    SameOutcome (SameResult F) (typeArguments? limit room c) (typeArguments? limit room c') := by
  unfold Formula.typeArguments?
  rw [A.sees_eq h (by decide)]
  split
  · rename_i hopen
    have hlist := A.readTypeList room hopen h
    generalize Formula.readTypeList room c = x, Formula.readTypeList room c' = y at hlist
    rcases x with fault | ⟨args, d⟩
    · rcases y with fault' | _
      · cases hlist
        cases fault with
        | malformed => exact ⟨rfl, h⟩
        | tooDeep => exact rfl
      · exact hlist.elim
    · rcases y with _ | ⟨args', d'⟩
      · exact hlist.elim
      · exact ⟨congrArg some hlist.1, hlist.2⟩
  · exact ⟨rfl, h⟩

end Cursor.Alike

end Formula
