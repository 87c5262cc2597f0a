import Formula.Node.Read
import Formula.Proofs.Outcome

/-!
# Reading under two bounds

A text that is read under a bound on nesting is read in the same way under any greater bound:
reading has the same outcome, unless it exceeds the lower bound (`Node.ofSource_unless`). A list of
type arguments that is given up because it is no such list is given up under both; one that is
nested too deep is an error, not a reason to read on differently.
-/

namespace Formula

theorem many_unless {ε σ α : Type} {E : ε → Prop} {size : σ → Nat}
    {step step' : σ → Except ε (Option (α × σ))}
    (h : ∀ s, Except.Unless E (step s) (step' s)) (s : σ) :
    Except.Unless E (many size step s) (many size step' s) := by
  fun_induction many size step s with
  | case1 s e hs =>
    rcases h s with ⟨e', he, herror⟩ | hsame
    · rw [hs] at herror
      cases herror
      exact .error he _
    · rw [many, ← hsame, hs]
      exact .refl _
  | case2 s hs =>
    have hs' := (h s).ok hs
    rw [many, hs']
    exact .refl _
  | case3 s a t hs hlt e hmore ih =>
    have hs' := (h s).ok hs
    rw [hmore] at ih
    rcases ih with ⟨e', he, herror⟩ | hsame
    · cases herror
      exact .error he _
    · rw [many, hs']
      simp only [if_pos hlt]
      rw [← hsame]
      exact .refl _
  | case4 s a t hs hlt as u hmore ih =>
    have hs' := (h s).ok hs
    rw [many, hs']
    simp only [if_pos hlt]
    rw [ih.ok hmore]
    exact .refl _
  | case5 s a t hs hlt =>
    have hs' := (h s).ok hs
    rw [many, hs']
    simp only [if_neg hlt]
    exact .refl _

/-! ## Type arguments -/

section

variable {limit limit' room room' : Nat}

theorem readTypeName_unless {list list' : Cursor → Except ListFault (List TypeName × Cursor)}
    {E : ListFault → Prop} (h : ∀ c, Except.Unless E (list c) (list' c)) (c : Cursor) :
    Except.Unless E (readTypeName list c) (readTypeName list' c) := by
  unfold readTypeName
  split
  · exact .refl _
  · refine (Except.Unless.refl _).bind fun ⟨more, c⟩ => ?_
    simp only
    split
    · exact (h c).bind fun _ => .refl _
    · exact .refl _

/-- A list of type arguments is nested too deep, or it is read as with more levels left. -/
theorem readTypeList_unless (hroom : room ≤ room') (c : Cursor) :
    Except.Unless (· = .tooDeep) (readTypeList room c) (readTypeList room' c) := by
  induction room generalizing room' c with
  | zero => exact .inl ⟨_, rfl, rfl⟩
  | succ room ih =>
    obtain ⟨room', rfl⟩ : ∃ k, room' = k + 1 := ⟨room' - 1, by omega⟩
    have hentry := readTypeName_unless (ih (by omega : room ≤ room'))
    refine (hentry c.next.skipBlanks).bind fun ⟨first, c⟩ => ?_
    refine (many_unless (fun c => ?_) c).bind fun _ => .refl _
    split
    · exact (hentry _).map some
    · exact .refl _

theorem typeArguments?_unless (hroom : room ≤ room') (c : Cursor) :
    Except.Unless (· = .limitExceeded .nestingDepth limit) (typeArguments? limit room c)
      (typeArguments? limit' room' c) := by
  unfold typeArguments?
  split
  · rcases readTypeList_unless hroom c with ⟨e, rfl, hdeep⟩ | hsame
    · rw [hdeep]
      exact .inl ⟨_, rfl, rfl⟩
    · rw [← hsame]
      rcases readTypeList room c with (_ | _) | ⟨args, after⟩
      · exact .refl _
      · exact .inl ⟨_, rfl, rfl⟩
      · exact .refl _
  · exact .refl _

end

/-! ## Levels -/

/-- Readings with the same outcome, but for errors with `E`. -/
def Reading.Unless {α : Type} (E : BuildError → Prop) (x y : Reading α) : Prop :=
  ∀ r, Except.Unless E (x r) (y r)

/-- One level under two bounds. -/
structure Level.Unless (E : BuildError → Prop) (level level' : Level) : Prop where
  typeArguments (c : Cursor) : Except.Unless E (level.typeArguments c) (level'.typeArguments c)
  enter : (∃ e, E e ∧ level.enter = .error e) ∨
    ∃ inner inner', level.enter = .ok inner ∧ level'.enter = .ok inner' ∧
    Reading.Unless E inner inner'

variable {E : BuildError → Prop} {level level' : Level}

namespace Level.Unless

variable (h : level.Unless E level')

include h

theorem bind_enter {β : Type} {f g : Reading (List Node) → Except BuildError β}
    (hf : ∀ inner inner', Reading.Unless E inner inner' → Except.Unless E (f inner) (g inner')) :
    Except.Unless E (level.enter >>= f) (level'.enter >>= g) := by
  rcases h.enter with ⟨e, he, henter⟩ | ⟨inner, inner', henter, henter', hinner⟩
  · rw [henter]
    exact .error he _
  · rw [henter, henter']
    exact hf inner inner' hinner

omit h in
theorem readArgument {inner inner' : Reading (List Node)} (h : Reading.Unless E inner inner') :
    Reading.Unless E (readArgument inner) (readArgument inner') :=
  fun r => (h r).bind fun _ => .refl _

theorem readArguments (close : Char) :
    Reading.Unless E (readArguments level close) (readArguments level' close) := by
  intro r
  refine h.bind_enter fun inner inner' hinner => ?_
  simp only
  split
  · exact .refl _
  · refine (readArgument hinner _).bind fun ⟨first, r⟩ => ?_
    refine (many_unless (fun r => ?_) r).bind fun _ => .refl _
    unfold readNextArgument
    split
    · exact (readArgument hinner _).map some
    · exact .refl _

theorem readIndexer (r : Reader) :
    Except.Unless E (readIndexer level r) (readIndexer level' r) := by
  unfold Formula.readIndexer
  split
  · exact (h.readArguments ']' r.next).bind fun _ => .refl _
  · exact .refl _

theorem readNamed : Reading.Unless E (readNamed level) (readNamed level') := by
  intro r
  refine (h.typeArguments _).bind fun ⟨generics, cursor⟩ => ?_
  simp only
  split
  · exact (h.readArguments ')' _).bind fun _ => .refl _
  · exact .refl _

theorem readSegments : Reading.Unless E (readSegments level) (readSegments level') := by
  intro r
  refine (h.readNamed r).bind fun ⟨named, r⟩ => ?_
  exact (many_unless h.readIndexer r).bind fun _ => .refl _

theorem readRoute : Reading.Unless E (readRoute level) (readRoute level') := by
  intro r
  refine (h.readSegments r).bind fun ⟨first, r⟩ => ?_
  refine (many_unless (fun r => ?_) r).bind fun _ => .refl _
  unfold readNextSegments
  split
  · exact (h.readSegments _).map some
  · exact .refl _

theorem readParentheses : Reading.Unless E (readParentheses level) (readParentheses level') := by
  intro r
  exact h.bind_enter fun inner inner' hinner => (hinner r.next).bind fun _ => .refl _

theorem readElement (r : Reader) :
    Except.Unless E (readElement level r) (readElement level' r) := by
  have helement : ∀ c, Reading.Unless E (readElementAt level c) (readElementAt level' c) := by
    intro c r
    unfold readElementAt
    simp only
    split
    · exact h.readParentheses r
    · split
      · exact .refl _
      · split
        · exact .refl _
        · split
          · exact h.readRoute r
          · exact .refl _
  unfold Formula.readElement
  simp only
  split
  · exact .refl _
  · split
    · exact .refl _
    · exact (helement _ _).map some

end Level.Unless

/-! ## Texts -/

theorem readElements_unless {limit limit' room room' : Nat} (hroom : room ≤ room') :
    Reading.Unless (· = .limitExceeded .nestingDepth limit) (readElements limit room)
      (readElements limit' room') := by
  induction room generalizing room' with
  | zero =>
    have hlevel : ∀ enter, Level.Unless (· = .limitExceeded .nestingDepth limit)
        ⟨typeArguments? limit 0, .error (.limitExceeded .nestingDepth limit)⟩
        ⟨typeArguments? limit' room', enter⟩ := fun enter =>
      ⟨typeArguments?_unless hroom, .inl ⟨_, rfl, rfl⟩⟩
    cases room' with
    | zero => exact many_unless (hlevel _).readElement
    | succ room' => exact many_unless (hlevel _).readElement
  | succ room ih =>
    obtain ⟨room', rfl⟩ : ∃ k, room' = k + 1 := ⟨room' - 1, by omega⟩
    have hlevel : Level.Unless (· = .limitExceeded .nestingDepth limit)
        ⟨typeArguments? limit (room + 1), .ok (readElements limit room)⟩
        ⟨typeArguments? limit' (room' + 1), .ok (readElements limit' room')⟩ :=
      ⟨typeArguments?_unless hroom, .inr ⟨_, _, rfl, rfl, ih (by omega)⟩⟩
    exact many_unless hlevel.readElement

/-- **A text is read as under any greater bound on nesting**, unless it exceeds the bound. -/
theorem Node.ofSource_unless {limit limit' : Nat} (hle : limit ≤ limit') (source : String) :
    Except.Unless (· = .limitExceeded .nestingDepth limit) (Node.ofSource limit source)
      (Node.ofSource limit' source) :=
  (readElements_unless hle _).bind fun _ => .refl _

end Formula
