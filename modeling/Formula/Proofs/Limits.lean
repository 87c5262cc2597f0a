import Formula.Proofs.Agreement
import Formula.Proofs.DepthLimit
import Formula.Proofs.Invariant
import Formula.Proofs.Prepared
import Formula.Proofs.ReadingLimits
import Formula.Registry.Standard

/-!
# Limits are filters

A binder with lower limits does what one with greater limits does, or reports that a limit is
exceeded: limits decide whether there is a result, not which one it is.

* `Binder.prepare_unless`, `Binder.firstBinding_unless`: so it is for preparing a text and for the
  first binding of what was prepared, with and without simplification.
* `Binder.limits_filter`: and without simplification the limit on the depth of bound trees refuses
  what is too deep and nothing else.
-/

namespace Formula

namespace Limits

/-- What a limit is set to. -/
def bound (l : Limits) : Limit → Nat
  | .sourceLength => l.sourceLength
  | .nestingDepth => l.nesting
  | .treeDepth => l.treeDepth

/-- Limits are compared one by one. -/
instance : LE Limits := ⟨fun l l' => ∀ limit, l.bound limit ≤ l'.bound limit⟩

/-- The errors of what exceeds one of the limits. -/
def Exceeded (l : Limits) (e : BuildError) : Prop :=
  ∃ limit, e = .limitExceeded limit (l.bound limit)

end Limits

namespace Binder

/-- The binder with other limits. -/
def within (b : Binder) (limits : Limits) : Binder := { b with limits }

/-- The binder with another limit on the depth of bound trees. -/
def upTo (b : Binder) (L : Nat) : Binder := b.within { b.limits with treeDepth := L }

variable {b : Binder} {limits : Limits}

/-! ## Texts -/

/-- **A text is prepared as under any greater limits**, unless it exceeds a limit. -/
theorem prepare_unless (hle : b.limits ≤ limits) (context : Context) (source : String) :
    Except.Unless b.limits.Exceeded (b.prepare context source)
      ((b.within limits).prepare context source) := by
  have hfollows : (b.scope context).Follows True b.limits.Exceeded (fun _ => True)
      ((b.within limits).scope context) :=
    ⟨hle .nestingDepth, fun _ => ⟨.nestingDepth, rfl⟩, fun _ => rfl⟩
  have hlength : b.limits.sourceLength ≤ limits.sourceLength := hle .sourceLength
  unfold prepare
  by_cases hlong : b.limits.sourceLength < source.utf8ByteSize
  · rw [if_pos hlong]
    exact .error ⟨.sourceLength, rfl⟩ _
  · have hlong' : ¬ (b.within limits).limits.sourceLength < source.utf8ByteSize :=
      fun h => hlong (Nat.lt_of_le_of_lt hlength h)
    rw [if_neg hlong, if_neg hlong']
    refine Except.Unless.bind ?_ fun ⟨root, nodes⟩ => ?_
    · exact (Node.ofSource_unless (hle .nestingDepth) source).mono fun _ he => ⟨.nestingDepth, he⟩
    · exact (hfollows.arrange (fun _ _ => trivial) nodes).bind fun _ => .refl _

/-- **A text is compiled as under any greater limits**, unless it exceeds a limit. -/
theorem firstBinding_unless (hle : b.limits ≤ limits) (context context' : Context)
    (source : String) :
    Except.Unless b.limits.Exceeded (b.firstBinding context context' source)
      ((b.within limits).firstBinding context context' source) := by
  unfold firstBinding
  rcases prepare_unless hle context source with ⟨e, he, h⟩ | h
  · rw [h]
    exact .error he _
  · rw [← h]
    cases hp : b.prepare context source with
    | error e => exact .refl _
    | ok p =>
      have hmeaning :=
        Node.meaning_unless (b.env context') (prepare_numbered hp).1.1 (hle .treeDepth)
      show Except.Unless _ (b.bind context' p).1 ((b.within limits).bind context' p).1
      rw [bind_eq_meaning hp, bind_eq_meaning hp]
      exact (hmeaning.mono fun _ he => ⟨.treeDepth, he⟩).map _

/-- **Limits are filters.** What a binder prepares and what it compiles, it prepares and compiles
under all greater limits. Without simplification there is an outcome of binding without a limit on
depth: a result is refused under a limit if and only if it is too deep, and an error stays an error
or the limit is exceeded before it is found. -/
theorem limits_filter (b : Binder) (context context' : Context) (source : String) :
    (∀ limits, b.limits ≤ limits →
      (∀ p, b.prepare context source = .ok p →
        (b.within limits).prepare context source = .ok p) ∧
      ∀ c, b.firstBinding context context' source = .ok c →
        (b.within limits).firstBinding context context' source = .ok c) ∧
    (b.simplify = false → ∀ p, b.prepare context source = .ok p →
      ∃ y, Unlimited (fun L => ((b.upTo L).bind context' p).1) y ∧
        (∀ c, y = .ok c → ∀ L, ((b.upTo L).bind context' p).1 =
          if c.root.depth ≤ L then .ok c else .error (.limitExceeded .treeDepth L)) ∧
        ∀ e, y = .error e → ∀ L, ((b.upTo L).bind context' p).1 = .error e ∨
          ((b.upTo L).bind context' p).1 = .error (.limitExceeded .treeDepth L)) := by
  refine ⟨fun limits hle => ⟨fun p hp => ?_, fun c hc => ?_⟩, fun hplain p hp => ?_⟩
  · exact (prepare_unless hle context source).ok hp
  · exact (firstBinding_unless hle context context' source).ok hc
  · have hbind : ∀ L, ((b.upTo L).bind context' p).1 =
        (p.root.meaning ((b.env context').upTo L)).map
          fun root => ⟨root, context'.parameters, context'.base⟩ :=
      fun L => bind_eq_meaning hp (b.upTo L) context'
    have hplain : (b.env context').simplify = false := hplain
    obtain ⟨y, ⟨N, hN⟩, hok, herror⟩ := Node.meaning_exact hplain p.root
    simp only [hbind]
    refine ⟨y.map _, ⟨N, fun L hL => congrArg _ (hN L hL)⟩, fun c hc L => ?_, fun e he L => ?_⟩
    · obtain ⟨root, rfl, rfl⟩ := Except.map_ok hc
      rw [hok root rfl L]
      split <;> rfl
    · obtain rfl := Except.map_error he
      rcases herror e rfl L with h | h
      · exact .inl (by rw [h]; rfl)
      · exact .inr (by rw [h]; rfl)

/-- A product of depth three, bound under a limit of three: it is bound in the same way under the
standard limits, and under exactly the limits from three on. -/
theorem limits_filter_product :
    let b : Binder := ⟨(Registry.standard []).host, ⟨16, 2, 3⟩, false⟩
    let context : Context := ⟨none, [⟨"x", .i32⟩]⟩
    b.limits ≤ .standard ∧ ∃ p c, b.prepare context "(x + 1) * x" = .ok p ∧
      (b.within .standard).prepare context "(x + 1) * x" = .ok p ∧
      b.firstBinding context context "(x + 1) * x" = .ok c ∧
      (b.within .standard).firstBinding context context "(x + 1) * x" = .ok c ∧
      ∀ L, ((b.upTo L).bind context p).1 =
        if 3 ≤ L then .ok c else .error (.limitExceeded .treeDepth L) := by
  intro b context
  have hle : b.limits ≤ .standard := fun limit => by cases limit <;> decide
  obtain ⟨p, hp, hbound⟩ : ∃ p, b.prepare context "(x + 1) * x" = .ok p ∧
      (b.bind context p).1.toOption.any (·.root.depth = 3) = true :=
    Except.exists_ok (by decide +kernel)
  obtain ⟨c, hc, hdepth⟩ := Except.exists_ok hbound
  have hfirst : b.firstBinding context context "(x + 1) * x" = .ok c := by
    unfold firstBinding
    rw [hp]
    exact hc
  obtain ⟨hgreater, hexact⟩ := limits_filter b context context "(x + 1) * x"
  obtain ⟨y, -, hok, herror⟩ := hexact rfl p hp
  refine ⟨hle, p, c, hp, (hgreater _ hle).1 p hp, hfirst, (hgreater _ hle).2 c hfirst, ?_⟩
  -- The binder is its own variant with the limit three, where binding succeeds.
  have hthree : ((b.upTo 3).bind context p).1 = .ok c := hc
  cases y with
  | error e => rcases herror e rfl 3 with h | h <;> cases hthree.symm.trans h
  | ok c' =>
    have h := hthree.symm.trans (hok c' rfl 3)
    split at h
    · cases h
      rw [← hdepth]
      exact hok c rfl
    · cases h

end Binder

end Formula
