import Formula.Proofs.Arithmetic
import Formula.Registry.Standard
import Mathlib.Data.List.Forall2

/-!
# Types of values

`Inhabits I ty v`: the value `v` is one of the type `ty`. What the objects of a class are is the
host's affair and given by `I`; null belongs to all classes, strings and arrays.

A function of a registry is well behaved if it gives values of its type wherever it is used
according to its signature, and fails with errors of a given sort only. The functions that every
host starts with are, and never complain about the values they are given:
`Registry.builtins_wellBehaved`, `FloatFunction.declaration_wellBehaved`,
`Registry.arrayLength_gives` and `Registry.arrayIndexer_gives`.
-/

namespace Formula

/-- The value is one of the type; `I` says which objects a class has. -/
def Inhabits (I : Ty → Value → Prop) : Ty → Value → Prop
  | .object, _ => True
  | .bool, v => ∃ b, v = .bool b
  | .string, v => v = .null ∨ ∃ s, v = .str s
  | .numeric kind, v => v.kind? = some kind
  | .array element rank, v =>
    v = .null ∨ ∃ grid, v = .array grid ∧ grid.rank = rank ∧
      ∀ item ∈ grid.items, Inhabits I element item
  | .named space name args, v => v = .null ∨ I (.named space name args) v
  | ty, v => I ty v

/-- The outcome is a value of the type, or an error of the sort `fine`. -/
def Gives (I : Ty → Value → Prop) (fine : RunError → Prop) (ty : Ty) : Outcome → Prop
  | .ok v => Inhabits I ty v
  | .error e => fine e

/-- Whether the error is other than a complaint about the number or the types of values. -/
def RunError.isClean : RunError → Bool
  | .tooFewValues .. | .invalidValue .. => false
  | _ => true

section

variable (I : Ty → Value → Prop) (fine : RunError → Prop)

/-- Wherever the item of the type `owner` is used according to its signature, it gives a value of
its type. The signature is that of `owner` or of another instance of the same generic class. -/
def ClassItem.WellBehaved (owner : Ty) : ClassItem → Prop
  | .property _ ty get => ∀ t, TypeKey.of t = TypeKey.of owner → ∀ v, v ≠ .null → Inhabits I t v →
      Gives I fine (ty.substitute t.args) (get v)
  | .staticProperty _ ty get => ∀ t, TypeKey.of t = TypeKey.of owner →
      Gives I fine (ty.substitute t.args) get
  | .method _ generics params result invoke => ∀ t, TypeKey.of t = TypeKey.of owner →
      ∀ more, more.length = generics → ∀ v, v ≠ .null → Inhabits I t v →
      ∀ args, List.Forall₂ (Inhabits I) (params.map (Ty.substitute (t.args ++ more))) args →
        Gives I fine (result.substitute (t.args ++ more)) (invoke v args)
  | .staticMethod _ generics params result invoke => ∀ t, TypeKey.of t = TypeKey.of owner →
      ∀ more, more.length = generics →
      ∀ args, List.Forall₂ (Inhabits I) (params.map (Ty.substitute (t.args ++ more))) args →
        Gives I fine (result.substitute (t.args ++ more)) (invoke args)
  | .indexer params result get => ∀ t, TypeKey.of t = TypeKey.of owner →
      ∀ v, v ≠ .null → Inhabits I t v →
      ∀ args, List.Forall₂ (Inhabits I) (params.map (Ty.substitute t.args)) args →
        Gives I fine (result.substitute t.args) (get v args)

/-- All functions of a declaration give values of their types. -/
def Declaration.WellBehaved : Declaration → Prop
  | .extend owner items => ∀ item ∈ items, item.WellBehaved I fine owner
  | .conversion source target run => ∀ v, Inhabits I source v → Gives I fine target (run v)

end

variable {I : Ty → Value → Prop} {fine fine' : RunError → Prop}

theorem Gives.mono {ty : Ty} {x : Outcome} (hfine : ∀ e, fine e → fine' e) (h : Gives I fine ty x) :
    Gives I fine' ty x := by
  cases x with
  | ok v => exact h
  | error e => exact hfine e h

theorem ClassItem.WellBehaved.mono {owner : Ty} {item : ClassItem} (hfine : ∀ e, fine e → fine' e)
    (h : item.WellBehaved I fine owner) : item.WellBehaved I fine' owner := by
  cases item with
  | property => exact fun t ht v hnull hv => (h t ht v hnull hv).mono hfine
  | staticProperty => exact fun t ht => (h t ht).mono hfine
  | method =>
    exact fun t ht more hmore v hnull hv args hargs =>
      (h t ht more hmore v hnull hv args hargs).mono hfine
  | staticMethod =>
    exact fun t ht more hmore args hargs => (h t ht more hmore args hargs).mono hfine
  | indexer => exact fun t ht v hnull hv args hargs => (h t ht v hnull hv args hargs).mono hfine

/-! ## Arguments -/

theorem eq_f64_of_inhabits {v : Value} (h : Inhabits I .f64 v) : ∃ x, v = .f64 x := by
  cases v with
  | f64 x => exact ⟨x, rfl⟩
  | _ => cases h

theorem eq_str_of_inhabits {v : Value} (h : Inhabits I .string v) (hnull : v ≠ .null) :
    ∃ s, v = .str s := by
  rcases h with rfl | h
  · exact (hnull rfl).elim
  · exact h

/-- An argument that is a `double` is read as one. -/
theorem floatArgument_ok {args : List Value} {i : Nat} {v : Value} (hv : args[i]? = some v)
    (h : Inhabits I .f64 v) : ∃ x, floatArgument args i = .ok x := by
  obtain ⟨x, rfl⟩ := eq_f64_of_inhabits h
  refine ⟨x, ?_⟩
  simp only [floatArgument, argument, hv]
  rfl

private theorem mapM_ok {α β ε : Type} {f : α → Except ε β} {xs : List α}
    (h : ∀ x ∈ xs, ∃ y, f x = .ok y) : ∃ ys, xs.mapM f = .ok ys := by
  induction xs with
  | nil => exact ⟨[], rfl⟩
  | cons x xs ih =>
    obtain ⟨y, hy⟩ := h x List.mem_cons_self
    obtain ⟨ys, hys⟩ := ih fun z hz => h z (List.mem_cons_of_mem x hz)
    refine ⟨y :: ys, ?_⟩
    rw [List.mapM_cons, hy, hys]
    rfl

theorem forall₂_one {α β : Type} {R : α → β → Prop} {a : α} {bs : List β}
    (h : List.Forall₂ R [a] bs) : ∃ b, bs = [b] ∧ R a b := by
  cases h with
  | cons hab hrest =>
    cases hrest
    exact ⟨_, rfl, hab⟩

theorem forall₂_two {α β : Type} {R : α → β → Prop} {a a' : α} {bs : List β}
    (h : List.Forall₂ R [a, a'] bs) : ∃ b b', bs = [b, b'] ∧ R a b ∧ R a' b' := by
  cases h with
  | cons hab hrest =>
    obtain ⟨b', rfl, hb'⟩ := forall₂_one hrest
    exact ⟨_, b', rfl, hab, hb'⟩

theorem floatArguments_ok {args : List Value} {count : Nat}
    (h : List.Forall₂ (Inhabits I) (List.replicate count .f64) args) :
    ∃ xs, floatArguments args count = .ok xs := by
  refine mapM_ok fun i hi => ?_
  have hlen := h.length_eq
  rw [List.length_replicate] at hlen
  have hi' : i < args.length := hlen ▸ List.mem_range.mp hi
  have hv : Inhabits I .f64 args[i] := by
    have := h.get (i := i) (by simpa [hlen] using hi') hi'
    simpa using this
  exact floatArgument_ok (List.getElem?_eq_getElem hi') hv

/-! ## Functions that every host starts with -/

private theorem bounds_kind (kind : Kind) :
    kind.bounds.1.kind? = some kind ∧ kind.bounds.2.kind? = some kind := by
  cases kind <;> exact ⟨rfl, rfl⟩

theorem boundsDeclaration_wellBehaved (kind : Kind) :
    (boundsDeclaration kind).WellBehaved I fine := by
  intro item hitem
  simp only [List.mem_cons, List.not_mem_nil, or_false] at hitem
  rcases hitem with rfl | rfl
  · exact fun _ _ => (bounds_kind kind).1
  · exact fun _ _ => (bounds_kind kind).2

theorem key_string {t : Ty} (h : TypeKey.of t = TypeKey.of .string) : t = .string := by
  cases t <;> simp_all [TypeKey.of]

theorem stringDeclaration_wellBehaved : stringDeclaration.WellBehaved I fine := by
  intro item hitem
  simp only [List.mem_cons, List.not_mem_nil, or_false] at hitem
  rcases hitem with rfl | rfl | rfl
  · intro t ht v hnull hv
    cases key_string ht
    obtain ⟨s, rfl⟩ := eq_str_of_inhabits hv hnull
    exact Value.kind?_ofInt _ _
  · intro t ht more _ v hnull hv args _
    cases key_string ht
    obtain ⟨s, rfl⟩ := eq_str_of_inhabits hv hnull
    exact .inr ⟨_, rfl⟩
  · intro t ht more _ v hnull hv args _
    cases key_string ht
    obtain ⟨s, rfl⟩ := eq_str_of_inhabits hv hnull
    exact .inr ⟨_, rfl⟩

/-- Every kind that has an absolute value is signed. -/
theorem absKinds_isSigned : ∀ kind ∈ absKinds, kind.isSigned = true := by
  decide

theorem abs_ok {v : Value} {kind : Kind} (hv : v.kind? = some kind) (hk : kind.isSigned = true) :
    ∃ w, v.abs = .ok w ∧ w.kind? = some kind := by
  cases v with
  | int k x =>
    cases hv
    exact ⟨_, if_pos hk, rfl⟩
  | f32 | f64 | decimal =>
    cases hv
    exact ⟨_, rfl, rfl⟩
  | _ => cases hv

theorem comparedKinds_of_mem {k : IntKind} (h : Kind.int k ∈ pickKinds) : k ∈ comparedKinds := by
  simpa [pickKinds] using h

private theorem pick_ok {a b : Value} {kind : Kind} (greater : Bool) (ha : a.kind? = some kind)
    (hb : b.kind? = some kind) (hk : kind ∈ pickKinds) :
    ∃ w, Value.pick greater a b = .ok w ∧ w.kind? = some kind := by
  cases a <;> cases b <;> cases ha <;> cases hb
  · exact ⟨_, if_pos ⟨rfl, comparedKinds_of_mem hk⟩, rfl⟩
  all_goals exact ⟨_, rfl, rfl⟩

theorem absItem_wellBehaved {kind : Kind} (hk : kind ∈ absKinds) (owner : Ty) :
    (absItem kind).WellBehaved I fine owner := by
  intro t _ more _ args hargs
  obtain ⟨v, rfl, hv⟩ := forall₂_one hargs
  obtain ⟨w, hw, hkind⟩ := abs_ok hv (absKinds_isSigned kind hk)
  change Gives I fine _ v.abs
  rw [hw]
  exact hkind

theorem pickItems_wellBehaved {kind : Kind} (hk : kind ∈ pickKinds) (owner : Ty) :
    ∀ item ∈ pickItems kind, item.WellBehaved I fine owner := by
  have hpick : ∀ greater t (more : List Ty) args, List.Forall₂ (Inhabits I)
      ([Ty.numeric kind, .numeric kind].map (Ty.substitute (Ty.args t ++ more))) args →
      Gives I fine (.numeric kind) (do
        Value.pick greater (← argument args 0) (← argument args 1)) := by
    intro greater t more args hargs
    obtain ⟨a, b, rfl, ha, hb⟩ := forall₂_two hargs
    obtain ⟨w, hw, hkind⟩ := pick_ok greater ha hb hk
    change Gives I fine _ (Value.pick greater a b)
    rw [hw]
    exact hkind
  intro item hitem
  simp only [pickItems, List.mem_cons, List.not_mem_nil, or_false] at hitem
  rcases hitem with rfl | rfl
  · exact fun t _ more _ args hargs => hpick false t more args hargs
  · exact fun t _ more _ args hargs => hpick true t more args hargs

theorem unaryItem_wellBehaved (name : String) (f : Float → Float) (owner : Ty) :
    (unaryItem name f).WellBehaved I fine owner := by
  intro t _ more _ args hargs
  obtain ⟨v, rfl, hv⟩ := forall₂_one hargs
  obtain ⟨x, rfl⟩ := eq_f64_of_inhabits hv
  exact rfl

theorem mathDeclaration_wellBehaved : mathDeclaration.WellBehaved I fine := by
  intro item hitem
  simp only [List.mem_append, List.mem_map, List.mem_flatMap, List.mem_cons, List.not_mem_nil,
    or_false] at hitem
  rcases hitem with (⟨kind, hk, rfl⟩ | ⟨kind, hk, hitem⟩) | hitem
  · exact absItem_wellBehaved hk _
  · exact pickItems_wellBehaved hk _ item hitem
  · rcases hitem with rfl | rfl | rfl | rfl | rfl | rfl | rfl
    · exact unaryItem_wellBehaved _ _ _
    · intro t _ more _ args hargs
      obtain ⟨a, b, rfl, ha, hb⟩ := forall₂_two hargs
      obtain ⟨x, rfl⟩ := eq_f64_of_inhabits ha
      obtain ⟨y, rfl⟩ := eq_f64_of_inhabits hb
      exact rfl
    · exact unaryItem_wellBehaved _ _ _
    · exact unaryItem_wellBehaved _ _ _
    · exact unaryItem_wellBehaved _ _ _
    · exact fun _ _ => rfl
    · exact fun _ _ => rfl

/-- What every host starts with is well behaved, and never fails where it is used according to its
signature. -/
theorem Registry.builtins_wellBehaved : ∀ d ∈ builtins, d.WellBehaved I fine := by
  intro d hd
  simp only [builtins, List.mem_append, List.mem_map, List.mem_cons, List.not_mem_nil,
    or_false] at hd
  rcases hd with ⟨kind, -, rfl⟩ | rfl | rfl
  · exact boundsDeclaration_wellBehaved kind
  · exact stringDeclaration_wellBehaved
  · exact mathDeclaration_wellBehaved

/-- So are the functions the host links in. -/
theorem FloatFunction.declaration_wellBehaved (f : FloatFunction) :
    f.declaration.WellBehaved I fine := by
  intro item hitem
  cases List.mem_singleton.mp hitem
  intro t _ more _ args hargs
  have hargs' : List.Forall₂ (Inhabits I) (List.replicate f.arity .f64) args := by
    simpa [Ty.substitute] using hargs
  obtain ⟨xs, hxs⟩ := floatArguments_ok hargs'
  simp only [hxs]
  exact rfl

namespace Registry

/-- The length of an array is an `int`. -/
theorem arrayLength_gives {element : Ty} {rank : Nat} {v : Value} (hnull : v ≠ .null)
    (hv : Inhabits I (.array element rank) v) : Gives I fine .i32 (arrayLength.get (some v)) := by
  rcases hv with rfl | ⟨grid, rfl, -, -⟩
  · exact (hnull rfl).elim
  · exact Value.kind?_ofInt _ _

private theorem indices_ok {args : List Value} {rank : Nat}
    (h : List.Forall₂ (Inhabits I) (List.replicate rank .i64) args) :
    ∃ is, indices args = .ok is ∧ is.length = rank := by
  induction rank generalizing args with
  | zero =>
    cases h
    exact ⟨[], rfl, rfl⟩
  | succ rank ih =>
    rw [List.replicate_succ] at h
    cases h with
    | cons hv hrest =>
      obtain ⟨x, rfl⟩ := Value.eq_int_of_kind? hv
      obtain ⟨is, his, hlen⟩ := ih hrest
      refine ⟨(IntKind.i64.toInt x).bmod (2 ^ 64) :: is, ?_, by simp [hlen]⟩
      change (indices _).map _ = _
      rw [his]
      rfl

private theorem locate_error {flat : Nat} {is : List Int} {dims : List Nat} {e : RunError}
    (h : Grid.locate flat is dims = .error e) :
    (∃ i n, e = .indexOutOfRange i n) ∨ ∃ trap, e = .trapped trap := by
  induction is generalizing flat dims with
  | nil => cases h
  | cons i is ih =>
    cases dims with
    | nil => cases h
    | cons dim dims =>
      simp only [Grid.locate] at h
      split at h
      · cases h
        exact .inl ⟨_, _, rfl⟩
      · split at h
        · cases h
          exact .inr ⟨_, rfl⟩
        · exact ih h

/-- An item of an array is one of its element type. An array is indexed by as many numbers as it
has dimensions, so an index out of range is all that can be wrong, or a position that is none. -/
theorem arrayIndexer_gives {ty element : Ty} {rank : Nat} {v : Value} {args : List Value}
    (hfine : ∀ e : RunError, e.isClean = true → fine e) (hnull : v ≠ .null)
    (hv : Inhabits I (.array element rank) v)
    (hargs : List.Forall₂ (Inhabits I) (List.replicate rank .i64) args) :
    Gives I fine element ((arrayIndexer ty element rank).get (some v) args) := by
  rcases hv with rfl | ⟨grid, rfl, hrank, hitems⟩
  · exact (hnull rfl).elim
  · obtain ⟨is, his, hlen⟩ := indices_ok hargs
    change Gives I fine element ((indices args).bind grid.get)
    rw [his]
    change Gives I fine element (grid.get is)
    have hposition : grid.position is = Grid.locate 0 is grid.dims :=
      if_neg (by simp [hlen, hrank])
    unfold Grid.get
    rw [hposition]
    cases hlocate : Grid.locate 0 is grid.dims with
    | error e =>
      rcases locate_error hlocate with ⟨i, n, rfl⟩ | ⟨trap, rfl⟩ <;> exact hfine _ rfl
    | ok position =>
      cases hitem : grid.items[position]? with
      | none =>
        simp only [hitem]
        exact hfine _ rfl
      | some item =>
        simp only [hitem]
        exact hitems item (List.mem_of_getElem? hitem)

end Registry

end Formula
