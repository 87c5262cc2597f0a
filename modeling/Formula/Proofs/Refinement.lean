import Formula.Proofs.Trace
import Mathlib.Data.List.Forall2

/-!
# Trees that evaluate alike

A host may give a value of another kind than it promised. A frame is faithful for a tree if none of
the inputs and results of the host that its evaluation meets does so (`Bound.Faithful`).

`Refines p o`: the tree `o` has the type of `p`, reads the receiver if `p` does, is no deeper, has
every value that `p` has, and fails as `p` does in every faithful frame. It is kept by every
constructor of trees, one lemma each.
-/

namespace Formula

/-- The type that is promised for the value of an input or for the result of a host's function. -/
def Action.promised? : Action → Option Ty
  | .param ty _ | .this ty | .get ty _ _ | .invoke ty _ _ _ | .index ty _ _ _
  | .convert ty (.custom _) _ => some ty
  | _ => none

/-- Where a number is promised, one of the same kind is given. -/
def Action.Faithful (frame : Frame) (a : Action) : Prop :=
  ∀ kind v, a.promised? = some (.numeric kind) → a.run frame = .ok v → v.kind? = some kind

/-- All inputs and results of the host that the evaluation of a tree meets are of the promised
kinds. -/
def Bound.Faithful (frame : Frame) (b : Bound) : Prop := ∀ a ∈ b.actions frame, a.Faithful frame

namespace Traced

variable {α β : Type} {frame : Frame}

/-- All actions of a computation give what they promise. -/
def Faithful (frame : Frame) (x : Traced α) : Prop := ∀ a ∈ x.actions, a.Faithful frame

theorem faithful_bind {x : Traced α} {f : α → Traced β} :
    (x >>= f).Faithful frame ↔
      x.Faithful frame ∧ ∀ v, x.outcome = .ok v → (f v).Faithful frame := by
  constructor
  · intro h
    exact ⟨fun a ha => h a (mem_bind_actions.mpr (.inl ha)),
      fun v hv a ha => h a (mem_bind_actions.mpr (.inr ⟨v, hv, ha⟩))⟩
  · rintro ⟨hx, hf⟩ a ha
    rcases mem_bind_actions.mp ha with ha | ⟨v, hv, ha⟩
    · exact hx a ha
    · exact hf v hv a ha

theorem faithful_pure (a : α) : (pure a : Traced α).Faithful frame := by
  intro a ha
  cases ha

/-- Whatever value `x` has, `y` has; and if all promises are kept, `y` fails as `x` does and its
promises are kept, too. -/
structure Agree (frame : Frame) (x y : Traced α) : Prop where
  value : ∀ v, x.outcome = .ok v → y.outcome = .ok v
  faithful : x.Faithful frame → y.Faithful frame ∧ y.outcome = x.outcome

namespace Agree

theorem refl (frame : Frame) (x : Traced α) : Agree frame x x :=
  ⟨fun _ h => h, fun h => ⟨h, rfl⟩⟩

theorem trans {x y z : Traced α} (hxy : Agree frame x y) (hyz : Agree frame y z) :
    Agree frame x z := by
  refine ⟨fun v h => hyz.value v (hxy.value v h), fun hx => ?_⟩
  obtain ⟨hy, hoy⟩ := hxy.faithful hx
  obtain ⟨hz, hoz⟩ := hyz.faithful hy
  exact ⟨hz, hoz.trans hoy⟩

theorem bind {x y : Traced α} {f g : α → Traced β} (h : Agree frame x y)
    (hf : ∀ a, Agree frame (f a) (g a)) : Agree frame (x >>= f) (y >>= g) := by
  constructor
  · intro v hv
    rw [bind_outcome] at hv ⊢
    obtain ⟨a, ha, hv⟩ := Except.bind_ok hv
    rw [h.value a ha]
    exact (hf a).value v hv
  · intro hfaithful
    obtain ⟨hx, hfx⟩ := faithful_bind.mp hfaithful
    obtain ⟨hy, houtcome⟩ := h.faithful hx
    rw [faithful_bind, bind_outcome, bind_outcome, houtcome]
    refine ⟨⟨hy, fun a ha => ((hf a).faithful (hfx a ha)).1⟩, ?_⟩
    cases hx : x.outcome with
    | error e => rfl
    | ok a => exact ((hf a).faithful (hfx a hx)).2

end Agree

end Traced

namespace Bound

open Traced

attribute [simp] depth maxDepth usesReceiver anyUsesReceiver

/-- The tree `o` stands in for the tree `p`. -/
structure Refines (p o : Bound) : Prop where
  ty_eq : o.ty = p.ty
  usesReceiver_eq : o.usesReceiver = p.usesReceiver
  depth_le : o.depth ≤ p.depth
  agree : ∀ frame, Agree frame (p.evaluate frame) (o.evaluate frame)

namespace Refines

variable {p o q r : Bound} {ps os : List Bound}

theorem refl (b : Bound) : Refines b b := ⟨rfl, rfl, Nat.le_refl _, fun frame => .refl frame _⟩

theorem trans (h : Refines p o) (h' : Refines o r) : Refines p r where
  ty_eq := h'.ty_eq.trans h.ty_eq
  usesReceiver_eq := h'.usesReceiver_eq.trans h.usesReceiver_eq
  depth_le := Nat.le_trans h'.depth_le h.depth_le
  agree frame := (h.agree frame).trans (h'.agree frame)

/-- A refined tree has every value of the tree. -/
theorem eval_ok (h : Refines p o) {frame : Frame} {v : Value} (hv : p.eval frame = .ok v) :
    o.eval frame = .ok v := by
  rw [← evaluate_outcome] at hv ⊢
  exact (h.agree frame).value v hv

/-- In a faithful frame a refined tree evaluates as the tree does. -/
theorem eval_eq (h : Refines p o) {frame : Frame} (hf : p.Faithful frame) :
    o.eval frame = p.eval frame := by
  rw [← evaluate_outcome, ← evaluate_outcome]
  exact ((h.agree frame).faithful hf).2

theorem evaluateAll (h : List.Forall₂ Refines ps os) (frame : Frame) :
    Agree frame (evaluateAll frame ps) (evaluateAll frame os) := by
  induction h with
  | nil => exact .refl frame _
  | cons h _ ih =>
    simp only [Bound.evaluateAll]
    exact (h.agree frame).bind fun _ => ih.bind fun _ => .refl frame _

theorem maxDepth_le (h : List.Forall₂ Refines ps os) : maxDepth os ≤ maxDepth ps := by
  induction h with
  | nil => exact Nat.le_refl _
  | cons h _ ih =>
    have := h.depth_le
    simp only [maxDepth]
    omega

theorem anyUsesReceiver_eq (h : List.Forall₂ Refines ps os) :
    anyUsesReceiver os = anyUsesReceiver ps := by
  induction h with
  | nil => rfl
  | cons h _ ih => simp [h.usesReceiver_eq, ih]

theorem member (h : Refines p o) (ty : Ty) (m : Member) :
    Refines (.member ty (some p) m) (.member ty (some o) m) where
  ty_eq := rfl
  usesReceiver_eq := by simp [h.usesReceiver_eq]
  depth_le := by
    have := h.depth_le
    simp only [depth]
    omega
  agree frame := by
    simp only [evaluate]
    exact (h.agree frame).bind fun _ => .refl frame _

theorem staticCall (hs : List.Forall₂ Refines ps os) (ty : Ty) (m : Method) :
    Refines (.call ty none m ps) (.call ty none m os) where
  ty_eq := rfl
  usesReceiver_eq := by simp [anyUsesReceiver_eq hs]
  depth_le := by
    have := maxDepth_le hs
    simp only [depth]
    omega
  agree frame := by
    simp only [evaluate]
    exact (evaluateAll hs frame).bind fun _ => .refl frame _

theorem call (h : Refines p o) (hs : List.Forall₂ Refines ps os) (ty : Ty) (m : Method) :
    Refines (.call ty (some p) m ps) (.call ty (some o) m os) where
  ty_eq := rfl
  usesReceiver_eq := by simp [h.usesReceiver_eq, anyUsesReceiver_eq hs]
  depth_le := by
    have := h.depth_le
    have := maxDepth_le hs
    simp only [depth]
    omega
  agree frame := by
    simp only [evaluate]
    exact (h.agree frame).bind fun _ => (Agree.refl frame _).bind fun _ =>
      (evaluateAll hs frame).bind fun _ => .refl frame _

theorem index (h : Refines p o) (hs : List.Forall₂ Refines ps os) (ty : Ty) (i : Indexer) :
    Refines (.index ty p i ps) (.index ty o i os) where
  ty_eq := rfl
  usesReceiver_eq := by simp [h.usesReceiver_eq, anyUsesReceiver_eq hs]
  depth_le := by
    have := h.depth_le
    have := maxDepth_le hs
    simp only [depth]
    omega
  agree frame := by
    simp only [evaluate]
    exact (h.agree frame).bind fun _ => (Agree.refl frame _).bind fun _ =>
      (evaluateAll hs frame).bind fun _ => .refl frame _

theorem convert (h : Refines p o) (ty : Ty) (c : Conversion) :
    Refines (.convert ty c p) (.convert ty c o) where
  ty_eq := rfl
  usesReceiver_eq := by simp [h.usesReceiver_eq]
  depth_le := by
    have := h.depth_le
    simp only [depth]
    omega
  agree frame := by
    simp only [evaluate]
    exact (h.agree frame).bind fun _ => .refl frame _

theorem negate (h : Refines p o) (ty : Ty) : Refines (.negate ty p) (.negate ty o) where
  ty_eq := rfl
  usesReceiver_eq := by simp [h.usesReceiver_eq]
  depth_le := by
    have := h.depth_le
    simp only [depth]
    omega
  agree frame := by
    simp only [evaluate]
    exact (h.agree frame).bind fun _ => .refl frame _

theorem binary (h : Refines p o) (h' : Refines q r) (ty : Ty) (op : ArithOp) :
    Refines (.binary ty op p q) (.binary ty op o r) where
  ty_eq := rfl
  usesReceiver_eq := by simp [h.usesReceiver_eq, h'.usesReceiver_eq]
  depth_le := by
    have := h.depth_le
    have := h'.depth_le
    simp only [depth]
    omega
  agree frame := by
    simp only [evaluate]
    exact (h.agree frame).bind fun _ => (h'.agree frame).bind fun _ => .refl frame _

end Refines

end Bound

end Formula
