import Formula.Proofs.Transparency

/-!
# What every bound tree has

`BindEnv.Invariant P`: each step of binding makes trees with `P` from trees with `P`. The rules are
those of a `Comparison`, for one tree instead of two.

* `BindEnv.Invariant.meaning`: then binding makes trees with `P` only.
* `BindEnv.Invariant.resolve`: so does binding with slots, if what they keep has `P`, whatever it
  was bound against.
* `Node.meaning_unless`: binding under a limit on depth makes the trees that it makes under a
  greater one, or exceeds the limit.
-/

namespace Formula

/-- All that is kept has `P`. -/
def Slots.All (P : Bound → Prop) (s : Slots) : Prop := ∀ i b, s.get? i = some b → P b

/-- From slots that keep trees with `P` only, the computation leaves such slots, and its outcome has
`Q`. -/
def Resolving.KeepsAll {α : Type} (P : Bound → Prop) (Q : α → Prop) (x : Resolving α) : Prop :=
  ∀ slots : Slots, slots.All P → (x.run slots).2.All P ∧ ∀ a, (x.run slots).1 = .ok a → Q a

namespace Resolving.KeepsAll

variable {α β : Type} {P : Bound → Prop} {Q : α → Prop} {R : β → Prop}

theorem bind {x : Resolving α} {f : α → Resolving β} (hx : x.KeepsAll P Q)
    (hf : ∀ a, Q a → (f a).KeepsAll P R) : KeepsAll P R (x >>= f) := by
  intro slots hall
  obtain ⟨hnext, hout⟩ := hx slots hall
  rw [run_bind]
  rcases hrun : x.run slots with ⟨e | a, next⟩
  · rw [hrun] at hnext
    exact ⟨hnext, nofun⟩
  · rw [hrun] at hnext hout
    exact hf a (hout a rfl) next hnext

theorem keep {x : Resolving Bound} (hx : x.KeepsAll P P) (slot : Nat) :
    KeepsAll P P (BindMonad.keep slot x) := by
  intro slots hall
  cases hslot : slots.get? slot with
  | some b =>
    rw [run_keep_filled x hslot]
    exact ⟨hall, fun a ha => Except.ok.inj ha ▸ hall slot b hslot⟩
  | none =>
    obtain ⟨hnext, hout⟩ := hx slots hall
    rw [run_keep x hslot]
    rcases hrun : x.run slots with ⟨e | b, next⟩
    · rw [hrun] at hnext
      exact ⟨hnext, nofun⟩
    · rw [hrun] at hnext hout
      refine ⟨fun i c hc => ?_, fun a ha => Except.ok.inj ha ▸ hout b rfl⟩
      rcases Slots.of_get?_fill hc with ⟨-, rfl⟩ | ⟨-, hc⟩
      · exact hout c rfl
      · exact hnext i c hc

end Resolving.KeepsAll

/-- The property `P` of trees is kept by every step of binding, each with what is known when the
step is taken; constants have `L`. -/
structure BindEnv.Invariant (env : BindEnv) (P : Bound → Prop) (L : Value → Prop := fun _ => True) :
    Prop where
  finish {b : Bound} : P b → P (env.finish b)
  const (v : Value) : L v → P (.const (literalType v) v)
  param {name : String} {i : Nat} {p : Parameter} :
    env.context.parameter? name = some (i, p) → P (.param p.ty i)
  this {ty : Ty} : env.context.base = some ty → P (.this ty)
  staticMember {ty : Ty} {name : String} {f : Member} :
    env.host.findMember ty name = some f → f.isStatic = true → P (.member f.ty none f)
  member {b : Bound} {name : String} {f : Member} :
    P b → env.host.findMember b.ty name = some f → f.isStatic = false →
      P (.member f.ty (some b) f)
  staticCall {ty : Ty} {name : String} {generics types params : List Ty} {f : Method}
      {args : List Bound} :
    env.host.findMethod ty name generics types = some (f, params) → f.isStatic = true →
      (∀ b ∈ args, P b) → args.map Bound.ty = params → P (.call f.result none f args)
  call {b : Bound} {name : String} {generics types params : List Ty} {f : Method}
      {args : List Bound} :
    P b → env.host.findMethod b.ty name generics types = some (f, params) → f.isStatic = false →
      (∀ b ∈ args, P b) → args.map Bound.ty = params → P (.call f.result (some b) f args)
  index {b : Bound} {types params : List Ty} {f : Indexer} {args : List Bound} :
    P b → env.host.findIndexer b.ty types = some (f, params) → (∀ b ∈ args, P b) →
      args.map Bound.ty = params → P (.index f.result b f args)
  implicit {b : Bound} {ty : Ty} {c : Conversion} :
    P b → b.ty ≠ ty → env.host.implicitConversion b.ty ty = some c → P (.convert ty c b)
  numeric {b : Bound} {source target : Kind} :
    P b → b.ty = .numeric source → P (.convert (.numeric target) (.numeric target) b)
  negate {b : Bound} {kind : Kind} :
    P b → b.ty = .numeric kind → kind.isSigned = true → P (.negate (.numeric kind) b)
  binary {op : ArithOp} {l r : Bound} {kind : Kind} :
    P l → P r → l.ty = .numeric kind → r.ty = .numeric kind → (op = .pow → kind = .f64) →
      P (.binary (.numeric kind) op l r)

namespace BindEnv.Invariant

variable {env : BindEnv} {P : Bound → Prop} {L : Value → Prop}

/-- Lists of equal trees with `P`. -/
theorem forall₂_eq_and {bs cs : List Bound} (h : List.Forall₂ (fun b c => c = b ∧ P b) bs cs) :
    cs = bs ∧ ∀ b ∈ bs, P b := by
  have hmap := forall₂_map_and (f := id) h
  rwa [List.map_id] at hmap

/-- Binding under a limit on depth compared with binding under one that is not lower. To exceed the
first limit is excused if it is lower. -/
def comparison (I : env.Invariant P L) {depth : Nat} (hle : env.maxDepth ≤ depth) :
    Comparison (Except BuildError) (Except BuildError) env (env.upTo depth) where
  alike := ⟨rfl, rfl⟩
  literal := L
  rel b c := c = b ∧ P b
  holds _ R x y := (env.maxDepth < depth ∧ x = .error (.limitExceeded .treeDepth env.maxDepth)) ∨
    SameOutcome R x y
  holds_pure h := .inr h
  holds_throw _ := .inr rfl
  holds_bind := by
    rintro α β γ δ R R' S T x y f g (⟨hlt, rfl⟩ | h) hf -
    · exact .inl ⟨hlt, rfl⟩
    · cases x <;> cases y <;> simp only [SameOutcome] at h
      · exact .inr h
      · exact hf _ _ h
  holds_keep h _ := h
  holds_mono _ h := h
  bounded := by
    rintro _ b ⟨rfl, hb⟩
    by_cases hd : env.maxDepth < b.depth
    · rw [env.bounded_of_lt hd]
      by_cases hlt : env.maxDepth < depth
      · exact .inl ⟨hlt, rfl⟩
      · obtain rfl : depth = env.maxDepth := Nat.le_antisymm (Nat.le_of_not_lt hlt) hle
        rw [BindEnv.bounded_of_lt (env.upTo env.maxDepth) hd]
        exact .inr rfl
    · have hd := Nat.le_of_not_lt hd
      rw [env.bounded_of_le hd, BindEnv.bounded_of_le (env.upTo depth) (Nat.le_trans hd hle)]
      exact .inr ⟨rfl, hb⟩
  finish := by
    rintro _ b ⟨rfl, hb⟩
    exact ⟨rfl, I.finish hb⟩
  ty_eq h := by rw [h.1]
  const v hv := ⟨rfl, I.const v hv⟩
  param _ := Context.parameter?_rel fun _ _ hp => ⟨rfl, I.param hp⟩
  this hb := ⟨rfl, I.this hb⟩
  staticMember hf hs := ⟨rfl, I.staticMember hf hs⟩
  member := by
    rintro _ b name f ⟨rfl, hb⟩ hf hs
    exact ⟨rfl, I.member hb hf hs⟩
  staticCall := by
    rintro ty name generics types params f ps os hf hs hargs ht
    obtain ⟨rfl, hall⟩ := forall₂_eq_and hargs
    exact ⟨rfl, I.staticCall hf hs hall ht⟩
  call := by
    rintro _ b name generics types params f ps os ⟨rfl, hb⟩ hf hs hargs ht
    obtain ⟨rfl, hall⟩ := forall₂_eq_and hargs
    exact ⟨rfl, I.call hb hf hs hall ht⟩
  index := by
    rintro _ b types params f ps os ⟨rfl, hb⟩ hf hargs ht
    obtain ⟨rfl, hall⟩ := forall₂_eq_and hargs
    exact ⟨rfl, I.index hb hf hall ht⟩
  implicit := by
    rintro _ b ty c ⟨rfl, hb⟩ hne hc
    exact ⟨rfl, I.implicit hb hne hc⟩
  numeric := by
    rintro _ b source target ⟨rfl, hb⟩ hty
    exact ⟨rfl, I.numeric hb hty⟩
  negate := by
    rintro _ b kind ⟨rfl, hb⟩ hty hsigned
    exact ⟨rfl, I.negate hb hty hsigned⟩
  binary := by
    rintro op _ l _ r kind ⟨rfl, hl⟩ ⟨rfl, hr⟩ hlty hrty hpow
    exact ⟨rfl, I.binary hl hr hlty hrty hpow⟩

/-- **Binding keeps invariants**: what a tree with distinct numbers is bound to has `P`. -/
theorem meaning (I : env.Invariant P L) {n : Node} (hn : n.slots.Nodup) {b : Bound}
    (hb : n.meaning env = .ok b)
    (hliterals : n.LiteralsIn L := by exact fun _ _ _ _ => trivial) : P b := by
  rcases (I.comparison (Nat.le_refl _)).task n hn (fun _ _ => trivial) hliterals with
    ⟨hlt, -⟩ | hsame
  · exact absurd hlt (Nat.lt_irrefl _)
  · have hsame : SameOutcome (fun b c => c = b ∧ P b) (n.meaning env) (n.meaning env) := hsame
    rw [hb] at hsame
    exact hsame.2

/-- Binding with slots that keep trees with `P` only. -/
def slots (I : env.Invariant P L) :
    Comparison Resolving (Except BuildError) env (env.upTo env.maxDepth) :=
  { I.comparison (Nat.le_refl env.maxDepth) with
    holds := fun _ R x _ => x.KeepsAll P fun a => ∃ b, R a b
    holds_pure := fun h _ hall => ⟨hall, fun _ ha => Except.ok.inj ha ▸ ⟨_, h⟩⟩
    holds_throw := fun _ _ hall => ⟨hall, nofun⟩
    holds_bind := fun hx hf _ => hx.bind fun a ⟨b, hab⟩ => hf a b hab
    holds_keep := fun {S slot x y} hx _ => by
      have hP : ∀ b, (∃ c, c = b ∧ P b) ↔ P b := fun b => by simp
      simp only [comparison, hP] at hx ⊢
      exact hx.keep slot
    holds_mono := fun _ h => h
    bounded := by
      rintro b _ ⟨rfl, hb⟩ slots hall
      unfold bounded
      split
      · exact ⟨hall, nofun⟩
      · exact ⟨hall, fun _ ha => Except.ok.inj ha ▸ ⟨_, rfl, hb⟩⟩ }

/-- Binding with slots keeps invariants, of what is bound and of what is kept. -/
theorem resolve (I : env.Invariant P L) {n : Node} (hn : n.slots.Nodup)
    (hliterals : n.LiteralsIn L) :
    (n.resolve env).KeepsAll P P := by
  intro slots hall
  obtain ⟨hnext, hout⟩ := I.slots.task n hn (fun _ _ => trivial) hliterals slots hall
  refine ⟨hnext, fun b hb => ?_⟩
  obtain ⟨c, -, hP⟩ := hout b hb
  exact hP

end BindEnv.Invariant

/-- A tree is bound as under any greater limit on depth, unless it exceeds the limit. -/
theorem Node.meaning_unless (env : BindEnv) {n : Node} (hn : n.slots.Nodup) {L : Nat}
    (hle : env.maxDepth ≤ L) :
    Except.Unless (· = .limitExceeded .treeDepth env.maxDepth) (n.meaning env)
      (n.meaning (env.upTo L)) := by
  have htrivial : env.Invariant fun _ => True := by constructor <;> intros <;> trivial
  rcases (htrivial.comparison hle).task n hn with ⟨-, h⟩ | h
  · exact .inl ⟨_, rfl, h⟩
  · obtain ⟨hsame, -⟩ := SameOutcome.eq_map (f := id) h
    rw [Except.map_id] at hsame
    exact .inr hsame.symm

end Formula
