import Formula.Proofs.WriteOnce

/-!
# Binding again

What a call makes of the bindings that earlier calls left behind, whether these succeeded or not.

* `Given`: binding where some nodes have their bindings given, and are not looked at. A call binds
  the tree given what is kept (`Node.resolve_eq_meaningGiven`).
* `Follows`: with it, that a call made again from what it has left, or from a part of that, has the
  same outcome and keeps nothing else.
* `Binder.calls_repeated`: in one context every call gives what the first one gives.
* `Binder.call_after_failure`: what a call that failed leaves to a call in another context.
-/

namespace Formula

/-! ## Given bindings -/

/-- Binding where the bindings of some numbers are given. -/
abbrev Given := ReaderT (Nat → Option Bound) (Except BuildError)

instance : BindMonad Given where
  keep slot action := fun given =>
    match given slot with
    | some b => .ok b
    | none => action given

/-- The binding of a tree in which the nodes and segments with a given binding stand for it. -/
def Node.meaningGiven (env : BindEnv) (given : Nat → Option Bound) (n : Node) :
    Except BuildError Bound :=
  (n.task env : Task Given).bind given

namespace Given

variable {α β : Type} {given : Nat → Option Bound}

theorem bind_apply (x : Given α) (f : α → Given β) :
    (x >>= f) given = x given >>= fun a => f a given :=
  rfl

theorem keep_some {slot : Nat} {b : Bound} (x : Given Bound) (h : given slot = some b) :
    (BindMonad.keep slot x : Given Bound) given = .ok b := by
  simp only [BindMonad.keep, h]

theorem keep_none {slot : Nat} (x : Given Bound) (h : given slot = none) :
    (BindMonad.keep slot x : Given Bound) given = x given := by
  simp only [BindMonad.keep, h]

end Given

namespace Slots

/-- At the numbers `S`, all that is kept in `s` is kept in `s'`, which has as many slots. -/
structure LeOn (S : List Nat) (s s' : Slots) : Prop where
  size_eq : s'.entries.size = s.entries.size
  get?_eq {i : Nat} (hi : i ∈ S) {b : Bound} : s.get? i = some b → s'.get? i = some b

theorem Le.leOn {s s' : Slots} (h : s.Le s') (S : List Nat) : s.LeOn S s' :=
  ⟨h.size_eq, fun _ _ => h.get?_eq⟩

theorem LeOn.mono {S T : List Nat} {s s' : Slots} (h : s.LeOn T s') (hST : S ⊆ T) : s.LeOn S s' :=
  ⟨h.size_eq, fun hi => h.get?_eq (hST hi)⟩

theorem LeOn.append {S T : List Nat} {s s' : Slots} (hS : s.LeOn S s') (hT : s.LeOn T s') :
    s.LeOn (S ++ T) s' :=
  ⟨hS.size_eq, fun hi _ hb => (List.mem_append.mp hi).elim (hS.get?_eq · hb) (hT.get?_eq · hb)⟩

theorem lt_of_get? {s : Slots} {i : Nat} {b : Bound} (h : s.get? i = some b) :
    i < s.entries.size := by
  by_contra hlt
  simp [get?, hlt] at h

/-- Only the slots at `S` matter. -/
theorem LeOn.congr {S : List Nat} {s s' t t' : Slots} (h : s.LeOn S s')
    (hsize : t.entries.size = s.entries.size) (hsize' : t'.entries.size = s'.entries.size)
    (hs : ∀ i ∈ S, t.get? i = s.get? i) (hs' : ∀ i ∈ S, t'.get? i = s'.get? i) : t.LeOn S t' := by
  refine ⟨by rw [hsize, hsize', h.size_eq], fun {i} hi {b} hb => ?_⟩
  rw [hs i hi] at hb
  rw [hs' i hi]
  exact h.get?_eq hi hb

end Slots

/-- The computation `x` uses the slots at `S` only. It has the outcome that `y` has with what is
kept there given; and from anything between its slots at the start and at the end, it has this
outcome again and keeps nothing that it did not keep then. -/
structure Follows {α β : Type} (S : List Nat) (R : α → β → Prop) (x : Resolving α) (y : Given β) :
    Prop where
  size_eq (slots : Slots) : (x.run slots).2.entries.size = slots.entries.size
  frame (slots : Slots) {j : Nat} : j ∉ S → (x.run slots).2.get? j = slots.get? j
  outcome (slots : Slots) {given : Nat → Option Bound} :
    (∀ i ∈ S, given i = slots.get? i) → SameOutcome R (x.run slots).1 (y given)
  again {slots slots' : Slots} :
    slots.LeOn S slots' → slots'.LeOn S (x.run slots).2 →
      (x.run slots').1 = (x.run slots).1 ∧ (x.run slots').2.LeOn S (x.run slots).2

namespace Follows

variable {α β γ δ : Type} {R : α → β → Prop} {R' : γ → δ → Prop} {S T : List Nat}

/-- A computation that leaves the slots alone and does not look at them. -/
theorem of_const {x : Resolving α} {y : Given β} {o : Except BuildError α}
    {o' : Except BuildError β} (hx : ∀ slots, x.run slots = (o, slots)) (hy : ∀ given, y given = o')
    (h : SameOutcome R o o') :
    Follows [] R x y where
  size_eq slots := by rw [hx]
  frame slots _ _ := by rw [hx]
  outcome slots given _ := by rw [hx, hy]; exact h
  again {slots slots'} _ h' := by
    rw [hx] at h'
    rw [hx, hx]
    exact ⟨rfl, h'⟩

theorem throw (e : BuildError) : Follows [] R (throw e : Resolving α) (throw e : Given β) :=
  have hsame : SameOutcome R (.error e) (.error e) := rfl
  .of_const (fun _ => rfl) (fun _ => rfl) hsame

theorem mono {x : Resolving α} {y : Given β} (hST : S ⊆ T) (h : Follows S R x y) :
    Follows T R x y where
  size_eq := h.size_eq
  frame slots _ hj := h.frame slots fun hS => hj (hST hS)
  outcome slots _ hgiven := h.outcome slots fun i hi => hgiven i (hST hi)
  again {slots slots'} hle hle' := by
    obtain ⟨houtcome, hend⟩ := h.again (hle.mono hST) (hle'.mono hST)
    refine ⟨houtcome, hend.size_eq, fun {i} hi {b} hb => ?_⟩
    by_cases hiS : i ∈ S
    · exact hend.get?_eq hiS hb
    · rw [h.frame slots' hiS] at hb
      exact hle'.get?_eq hi hb

/-- The outcome of a computation that succeeds has a counterpart. -/
theorem exists_of_ok {x : Resolving α} {y : Given β} (h : Follows S R x y)
    {slots next : Slots} {a : α} (hrun : x.run slots = (.ok a, next)) :
    ∃ b, y slots.get? = .ok b ∧ R a b := by
  have hsame : SameOutcome R (x.run slots).1 (y slots.get?) := h.outcome slots fun _ _ => rfl
  rw [hrun] at hsame
  cases hy : y slots.get? with
  | error e =>
    rw [hy] at hsame
    exact hsame.elim
  | ok b =>
    rw [hy] at hsame
    exact ⟨b, rfl, hsame⟩

section Sequence

variable {x : Resolving α} {y : Given β} {f : α → Resolving γ} {g : β → Given δ}

/-- Where the second step of two runs, it follows its counterpart, too. -/
theorem exists_second (h : Follows S R x y) (hf : ∀ a b, R a b → Follows T R' (f a) (g b))
    {slots next : Slots} {a : α} (hrun : x.run slots = (.ok a, next)) :
    ∃ b, Follows T R' (f a) (g b) := by
  obtain ⟨b, -, hab⟩ := h.exists_of_ok hrun
  exact ⟨b, hf a b hab⟩

theorem bind_outcome (h : Follows S R x y) (hf : ∀ a b, R a b → Follows T R' (f a) (g b))
    (hST : ∀ i ∈ T, i ∉ S) {slots : Slots} {given : Nat → Option Bound}
    (hgiven : ∀ i ∈ S ++ T, given i = slots.get? i) :
    SameOutcome R' ((x >>= f).run slots).1 ((y >>= g) given) := by
  have hfirst := h.outcome slots fun i hi => hgiven i (List.mem_append_left T hi)
  rw [Resolving.run_bind, Given.bind_apply]
  rcases hrun : x.run slots with ⟨e | a, next⟩ <;> rw [hrun] at hfirst <;>
    rcases hy : y given with e' | b <;> rw [hy] at hfirst
  · exact hfirst
  · exact hfirst.elim
  · exact hfirst.elim
  · refine (hf a b hfirst).outcome next fun i hi => ?_
    have hframe := h.frame slots (hST i hi)
    rw [hrun] at hframe
    rw [hframe]
    exact hgiven i (List.mem_append_right S hi)

/-- Two steps made again: the first one from what lies between the slots at its start and at its
end, and so the second one, which uses other slots. -/
theorem bind_again (h : Follows S R x y) (hf : ∀ a b, R a b → Follows T R' (f a) (g b))
    (hST : ∀ i ∈ T, i ∉ S) {slots slots' : Slots} (hle : slots.LeOn (S ++ T) slots')
    (hle' : slots'.LeOn (S ++ T) ((x >>= f).run slots).2) :
    ((x >>= f).run slots').1 = ((x >>= f).run slots).1 ∧
      ((x >>= f).run slots').2.LeOn (S ++ T) ((x >>= f).run slots).2 := by
  have hS := List.subset_append_left S T
  have hT := List.subset_append_right S T
  have hsize := h.size_eq slots
  have hframe : ∀ i ∈ T, (x.run slots).2.get? i = slots.get? i := fun i hi =>
    h.frame slots (hST i hi)
  have hsize' := h.size_eq slots'
  have hframe' : ∀ i ∈ T, (x.run slots').2.get? i = slots'.get? i := fun i hi =>
    h.frame slots' (hST i hi)
  rw [Resolving.run_bind] at hle' ⊢
  rw [Resolving.run_bind]
  rcases hrun : x.run slots with ⟨e | a, next⟩ <;> rw [hrun] at hle' hsize hframe
  · have hfirst := h.again (hle.mono hS) (by rw [hrun]; exact hle'.mono hS)
    rw [hrun] at hfirst
    rcases hrun' : x.run slots' with ⟨e' | a', next'⟩ <;> rw [hrun'] at hfirst hsize' hframe'
    · cases hfirst.1
      exact ⟨rfl, hfirst.2.append ((hle'.mono hT).congr hsize' rfl hframe' fun _ _ => rfl)⟩
    · cases hfirst.1
  · obtain ⟨b, hfa⟩ := h.exists_second hf hrun
    -- the second step does not use the slots of the first one
    have hkeep : ∀ slots, ∀ i ∈ S, ((f a).run slots).2.get? i = slots.get? i := fun slots i hi =>
      hfa.frame slots fun hiT => hST i hiT hi
    have hmiddle : slots'.LeOn S next :=
      (hle'.mono hS).congr rfl (hfa.size_eq next).symm (fun _ _ => rfl) fun i hi =>
        (hkeep next i hi).symm
    have hfirst := h.again (hle.mono hS) (by rw [hrun]; exact hmiddle)
    rw [hrun] at hfirst
    rcases hrun' : x.run slots' with ⟨e' | a', next'⟩ <;> rw [hrun'] at hfirst hsize' hframe'
    · cases hfirst.1
    · cases hfirst.1
      have hsecond := hfa.again ((hle.mono hT).congr hsize hsize' hframe hframe')
        ((hle'.mono hT).congr hsize' rfl hframe' fun _ _ => rfl)
      refine ⟨hsecond.1, .append ?_ hsecond.2⟩
      exact hfirst.2.congr (hfa.size_eq next') (hfa.size_eq next) (hkeep next') (hkeep next)

theorem bind (h : Follows S R x y) (hf : ∀ a b, R a b → Follows T R' (f a) (g b))
    (hST : (S ++ T).Nodup) : Follows (S ++ T) R' (x >>= f) (y >>= g) := by
  have hdisjoint : ∀ i ∈ T, i ∉ S := fun i hT hS => (List.nodup_append.mp hST).2.2 i hS i hT rfl
  refine ⟨fun slots => ?_, fun slots j hj => ?_, fun slots given => h.bind_outcome hf hdisjoint,
    fun {slots slots'} => h.bind_again hf hdisjoint⟩
  · have hsize := h.size_eq slots
    rw [Resolving.run_bind]
    rcases hrun : x.run slots with ⟨e | a, next⟩ <;> rw [hrun] at hsize
    · exact hsize
    · obtain ⟨b, hfa⟩ := h.exists_second hf hrun
      exact (hfa.size_eq next).trans hsize
  · rw [List.mem_append, not_or] at hj
    have hframe := h.frame slots hj.1
    rw [Resolving.run_bind]
    rcases hrun : x.run slots with ⟨e | a, next⟩ <;> rw [hrun] at hframe
    · exact hframe
    · obtain ⟨b, hfa⟩ := h.exists_second hf hrun
      exact (hfa.frame next hj.2).trans hframe

end Sequence

section Keeping

variable {slot : Nat} {x : Resolving Bound} {y : Given Bound}

theorem keep_outcome (h : Follows S (· = ·) x y) {slots : Slots} {given : Nat → Option Bound}
    (hgiven : ∀ i ∈ slot :: S, given i = slots.get? i) :
    SameOutcome (· = ·) ((BindMonad.keep slot x : Resolving Bound).run slots).1
      ((BindMonad.keep slot y : Given Bound) given) := by
  have hslot := hgiven slot List.mem_cons_self
  cases hget : slots.get? slot with
  | some b =>
    rw [Resolving.run_keep_filled x hget, Given.keep_some y (hslot.trans hget)]
    rfl
  | none =>
    rw [Resolving.run_keep x hget, Given.keep_none y (hslot.trans hget)]
    have hsame := h.outcome slots fun i hi => hgiven i (List.mem_cons_of_mem slot hi)
    rcases hrun : x.run slots with ⟨e | b, next⟩ <;> rw [hrun] at hsame <;> exact hsame

/-- A slot that is free at the start is free at the end, or holds the outcome. -/
theorem keep_end (h : Follows S (· = ·) x y) (hslot : slot ∉ S) {slots : Slots} {v : Bound}
    (hfree : slots.get? slot = none)
    (hv : ((BindMonad.keep slot x : Resolving Bound).run slots).2.get? slot = some v) :
    (x.run slots).1 = .ok v := by
  have hframe := h.frame slots hslot
  rw [Resolving.run_keep x hfree] at hv
  rcases hrun : x.run slots with ⟨e | b, next⟩ <;> rw [hrun] at hv hframe
  · rw [hframe, hfree] at hv
    cases hv
  · rcases Slots.of_get?_fill hv with ⟨-, rfl⟩ | ⟨hne, -⟩
    · rfl
    · exact (hne rfl).elim

/-- Binding a node changes the other slots as binding it without its own slot does. -/
theorem keep_rest (hslot : slot ∉ S) {slots : Slots} (hfree : slots.get? slot = none) {i : Nat}
    (hi : i ∈ S) :
    ((BindMonad.keep slot x : Resolving Bound).run slots).2.get? i = (x.run slots).2.get? i := by
  have hne : i ≠ slot := fun his => hslot (his ▸ hi)
  rw [Resolving.run_keep x hfree]
  rcases x.run slots with ⟨e | b, next⟩
  · rfl
  · exact Slots.get?_fill_ne next b hne

theorem run_keep_fst {slots : Slots} (hfree : slots.get? slot = none) :
    ((BindMonad.keep slot x : Resolving Bound).run slots).1 = (x.run slots).1 := by
  rw [Resolving.run_keep x hfree]
  rcases x.run slots with ⟨e | b, next⟩ <;> rfl

theorem keep_size (h : Follows S (· = ·) x y) (slots : Slots) :
    ((BindMonad.keep slot x : Resolving Bound).run slots).2.entries.size = slots.entries.size := by
  have hsize := h.size_eq slots
  rw [Resolving.run_keep_eq]
  split
  · rfl
  · rcases hrun : x.run slots with ⟨e | b, next⟩ <;> rw [hrun] at hsize
    · exact hsize
    · rw [Slots.size_fill]
      exact hsize

theorem keep_again (h : Follows S (· = ·) x y) (hslot : slot ∉ S) {slots slots' : Slots}
    (hle : slots.LeOn (slot :: S) slots')
    (hle' : slots'.LeOn (slot :: S) ((BindMonad.keep slot x : Resolving Bound).run slots).2) :
    ((BindMonad.keep slot x : Resolving Bound).run slots').1 =
        ((BindMonad.keep slot x : Resolving Bound).run slots).1 ∧
      ((BindMonad.keep slot x : Resolving Bound).run slots').2.LeOn (slot :: S)
        ((BindMonad.keep slot x : Resolving Bound).run slots).2 := by
  have hS := List.subset_cons_self slot S
  cases hget : slots.get? slot with
  | some b =>
    have hget' := hle.get?_eq List.mem_cons_self hget
    rw [Resolving.run_keep_filled x hget] at hle' ⊢
    rw [Resolving.run_keep_filled x hget']
    exact ⟨rfl, hle'⟩
  | none =>
    have hsize : ((BindMonad.keep slot x : Resolving Bound).run slots).2.entries.size =
        slots.entries.size := h.keep_size slots
    cases hget' : slots'.get? slot with
    | some v =>
      -- it was bound in the first run, so now its slot answers
      have hv := h.keep_end hslot hget (hle'.get?_eq List.mem_cons_self hget')
      rw [Resolving.run_keep_filled x hget', run_keep_fst hget]
      exact ⟨hv.symm, hle'⟩
    | none =>
      have hend : slots'.LeOn S (x.run slots).2 :=
        (hle'.mono hS).congr rfl ((h.size_eq slots).trans hsize.symm) (fun _ _ => rfl) fun i hi =>
          (keep_rest hslot hget hi).symm
      obtain ⟨hsame, hrest⟩ := h.again (hle.mono hS) hend
      have hsizes : ((BindMonad.keep slot x : Resolving Bound).run slots).2.entries.size =
          ((BindMonad.keep slot x : Resolving Bound).run slots').2.entries.size := by
        rw [h.keep_size, h.keep_size, hle.size_eq]
      refine ⟨by rw [run_keep_fst hget', run_keep_fst hget, hsame], hsizes, fun {i} hi {v} hv => ?_⟩
      rcases List.mem_cons.mp hi with rfl | hi
      · have hv' := hsame.symm.trans (h.keep_end hslot hget' hv)
        rw [← run_keep_fst hget] at hv'
        refine Resolving.get?_of_run_keep (Prod.ext hv' rfl) ?_
        rw [hsizes]
        exact Slots.lt_of_get? hv
      · rw [keep_rest hslot hget' hi] at hv
        rw [keep_rest hslot hget hi]
        exact hrest.get?_eq hi hv

theorem keep (h : Follows S (· = ·) x y) (hslot : slot ∉ S) :
    Follows (slot :: S) (· = ·) (BindMonad.keep slot x) (BindMonad.keep slot y) where
  size_eq := h.keep_size
  frame slots {j} hj := by
    rw [List.mem_cons, not_or] at hj
    cases hget : slots.get? slot with
    | some b => rw [Resolving.run_keep_filled x hget]
    | none =>
      have hframe := h.frame slots hj.2
      rw [Resolving.run_keep x hget]
      rcases hrun : x.run slots with ⟨e | b, next⟩ <;> rw [hrun] at hframe
      · exact hframe
      · exact (Slots.get?_fill_ne next b hj.1).trans hframe
  outcome _ _ := h.keep_outcome
  again := h.keep_again hslot

end Keeping

end Follows

/-- Binding with slots compared with binding where what is kept is given. -/
def BindEnv.givenComparison (env : BindEnv) :
    Comparison Resolving Given env env where
  alike := .refl env
  rel := (· = ·)
  holds := Follows
  holds_pure h := .of_const (fun _ => rfl) (fun _ => rfl) h
  holds_throw := Follows.throw
  holds_bind := Follows.bind
  holds_keep h := h.keep
  holds_mono := Follows.mono
  bounded := by
    rintro b _ rfl
    by_cases hd : env.maxDepth < b.depth
    · rw [env.bounded_of_lt hd, env.bounded_of_lt hd]
      exact .throw _
    · rw [Nat.not_lt] at hd
      rw [env.bounded_of_le hd, env.bounded_of_le hd]
      exact .of_const (fun _ => rfl) (fun _ => rfl) rfl
  finish := env.slotComparison.finish
  ty_eq := env.slotComparison.ty_eq
  const := env.slotComparison.const
  param := env.slotComparison.param
  this := env.slotComparison.this
  staticMember := env.slotComparison.staticMember
  member := env.slotComparison.member
  staticCall := env.slotComparison.staticCall
  call := env.slotComparison.call
  index := env.slotComparison.index
  implicit := env.slotComparison.implicit
  numeric := env.slotComparison.numeric
  negate := env.slotComparison.negate
  binary := env.slotComparison.binary

namespace Node

theorem resolve_follows (env : BindEnv) {n : Node} (hn : n.slots.Nodup) :
    Follows n.slots (· = ·) (n.resolve env) (n.task env : Task Given).bind :=
  env.givenComparison.task n hn

/-- **What is kept stands for its nodes**: from any slots a tree is bound to its meaning given what
is kept in them. -/
theorem resolve_eq_meaningGiven (env : BindEnv) {n : Node} (hn : n.slots.Nodup) (slots : Slots) :
    ((n.resolve env).run slots).1 = n.meaningGiven env slots.get? :=
  ((resolve_follows env hn).outcome slots fun _ _ => rfl).eq

end Node

/-! ## Calls -/

namespace Call

variable {p : Prepared} (call : Call)

theorem run_fst (p : Prepared) :
    (call.run p).1 = ((p.root.resolve call.env).run p.slots).1.map fun root =>
      ⟨root, call.context.parameters, call.context.base⟩ := rfl

/-- A call made again from a part of what it has left has the same outcome, and leaves nothing
else. -/
theorem run_again (hp : p.Ready) {part : Slots} (hstart : p.slots.Le part)
    (hend : part.Le (call.run p).2.slots) :
    (call.run { p with slots := part }).1 = (call.run p).1 ∧
      (call.run { p with slots := part }).2.slots.Le (call.run p).2.slots := by
  have hfollows := Node.resolve_follows call.env hp.numbered.1
  obtain ⟨houtcome, hle⟩ := hfollows.again (hstart.leOn _) (hend.leOn _)
  refine ⟨?_, hle.size_eq, fun {i b} hb => ?_⟩
  · rw [run_fst, run_fst, houtcome]
  · by_cases hi : i ∈ p.root.slots
    · exact hle.get?_eq hi hb
    · have hframe := hfollows.frame part hi
      exact hend.get?_eq (hframe.symm.trans hb)

/-- **A call made twice** says the same twice, and the second time it leaves everything as it is. -/
theorem run_run (hp : p.Ready) : call.run (call.run p).2 = call.run p := by
  have hle := (call.run_writes p).1
  obtain ⟨houtcome, hback⟩ := call.run_again hp hle (.refl _)
  have hslots : (call.run (call.run p).2).2.slots = (call.run p).2.slots :=
    hback.antisymm (call.run_writes (call.run p).2).1
  refine Prod.ext houtcome ?_
  exact congrArg (fun slots => { p with slots }) hslots

end Call

namespace Prepared

variable {p : Prepared}

theorem after_succ (p : Prepared) (call : Call) (n : Nat) :
    p.after (List.replicate (n + 1) call) = (call.run (p.after (List.replicate n call))).2 := by
  rw [List.replicate_succ', after, List.foldl_append]
  rfl

/-- The same call, made once or more often, leaves the same. -/
theorem after_replicate (hp : p.Ready) (call : Call) (n : Nat) :
    p.after (List.replicate (n + 1) call) = (call.run p).2 := by
  induction n with
  | zero => rfl
  | succ n ih => rw [after_succ, ih, call.run_run hp]

/-- The outcome of the same call is always that of the first time. -/
theorem run_replicate (hp : p.Ready) (call : Call) (n : Nat) :
    (call.run (p.after (List.replicate n call))).1 = (call.run p).1 := by
  cases n with
  | zero => rfl
  | succ n => rw [after_replicate hp, call.run_run hp]

end Prepared

namespace Bound

/-- The type and the position of a parameter. -/
def param? : Bound → Option (Ty × Nat)
  | .param ty i => some (ty, i)
  | _ => none

theorem eq_param {b : Bound} {ty : Ty} {i : Nat} (h : b.param? = some (ty, i)) :
    b = .param ty i := by
  cases b <;> cases h
  rfl

end Bound

namespace Binder

variable {b₀ : Binder} {context₀ : Context} {source : String} {p : Prepared}

/-- **In one context slots are transparent.** A call that is made again and again gives each time
what it gives to a fresh copy, and it does so from every part of what it leaves; after the first
success it gives the same root each time and leaves the slots as they are. -/
theorem calls_repeated (h : b₀.prepare context₀ source = .ok p) (call : Call) (n : Nat) :
    let q := p.after (List.replicate n call)
    (call.run q).1 = (call.run p).1 ∧
      (∀ part : Slots, part.Le (call.run p).2.slots →
        (call.run { p with slots := part }).1 = (call.run p).1) ∧
      ∀ c, (call.run q).1 = .ok c → ∀ m, n < m →
        p.after (List.replicate m call) = (call.run q).2 ∧
          call.run (p.after (List.replicate m call)) = (.ok c, (call.run q).2) := by
  intro q
  have hp := prepare_ready h
  have hsame : ∀ k, (call.run (p.after (List.replicate k call))).1 = (call.run p).1 :=
    Prepared.run_replicate hp call
  have hleft : ∀ k, (call.run (p.after (List.replicate k call))).2 = (call.run p).2 := fun k => by
    rw [← Prepared.after_succ, Prepared.after_replicate hp]
  refine ⟨hsame n, fun part hpart => ?_, fun c hc m hm => ?_⟩
  · have hsize := hpart.size_eq.symm.trans (call.run_writes p).1.size_eq
    have hstart : p.slots.Le part := ⟨hsize, fun hb => by simp [(prepare_numbered h).2] at hb⟩
    exact (call.run_again hp hstart hpart).1
  · obtain ⟨k, rfl⟩ : ∃ k, m = k + 1 := ⟨m - 1, by omega⟩
    have hafter : p.after (List.replicate (k + 1) call) = (call.run q).2 := by
      rw [Prepared.after_replicate hp, hleft n]
    refine ⟨hafter, Prod.ext ?_ ?_⟩
    · rw [hsame, ← hsame n, hc]
    · rw [hleft, hleft n]

/-- A call that fails on the second of two parameters, made three times. -/
theorem calls_repeated_difference :
    let b : Binder := ⟨(Registry.standard []).host, .standard, false⟩
    let left : Call := ⟨b, ⟨none, [⟨"x", .f64⟩]⟩⟩
    ∃ p, b.prepare left.context "x - y" = .ok p ∧ 0 < (left.run p).2.slots.filled ∧
      (left.run p).1.toOption.isNone ∧ (left.run (p.after [left, left])).1 = (left.run p).1 := by
  intro b left
  obtain ⟨p, hp, hfilled, hfails⟩ : ∃ p, b.prepare left.context "x - y" = .ok p ∧
      0 < (left.run p).2.slots.filled ∧ (left.run p).1.toOption.isNone :=
    Except.exists_ok (by decide +kernel)
  exact ⟨p, hp, hfilled, hfails, (calls_repeated hp left 2).1⟩

/-- **A failed call leaves what it has bound with success**, and the root is not among it. The call
that follows, in any context, binds the tree given that; so it has the outcome it has for a fresh
copy wherever what was left is what it binds there itself. -/
theorem call_after_failure (h : b₀.prepare context₀ source = .ok p) (first second : Call)
    {e : BuildError} (hfirst : (first.run p).1 = .error e) :
    let q := (first.run p).2
    q.slots.get? p.root.mark.slot = none ∧
      (∀ i v, q.slots.get? i = some v → BoundAnew first.env p.root.elements p.slots i v) ∧
      (second.run q).1 = (p.root.meaningGiven second.env q.slots.get?).map (fun root =>
        ⟨root, second.context.parameters, second.context.base⟩) ∧
      (q.slots.Le (second.run p).2.slots → (second.run q).1 = (second.run p).1) := by
  intro q
  have hp := prepare_ready h
  have hle : p.slots.Le q.slots := (first.run_writes p).1
  refine ⟨?_, fun i v hv => ?_, ?_, fun hq => ?_⟩
  · -- Otherwise the same call, made again, would find its root and succeed.
    by_contra hroot
    obtain ⟨root, hroot⟩ := Option.ne_none_iff_exists'.1 hroot
    have hagain : (first.run q).1 = .error e := by rw [first.run_run hp, hfirst]
    rw [first.run_of_kept hroot] at hagain
    cases hagain
  · refine (first.run_writes p).2 i v ?_ hv
    simp [(prepare_numbered h).2]
  · rw [Call.run_fst, ← Node.resolve_eq_meaningGiven _ hp.numbered.1]
    rfl
  · exact (second.run_again hp hle hq).1

/-- A call that fails on the second of two parameters has bound the first one to the type that the
second call gives it, too. -/
theorem call_after_failure_difference :
    let b : Binder := ⟨(Registry.standard []).host, .standard, false⟩
    let first : Call := ⟨b, ⟨none, [⟨"x", .i32⟩]⟩⟩
    let second : Call := ⟨b, ⟨none, [⟨"x", .i32⟩, ⟨"y", .f64⟩]⟩⟩
    ∃ p e, b.prepare first.context "x - y" = .ok p ∧ (first.run p).1 = .error e ∧
      0 < (first.run p).2.slots.filled ∧ (first.run p).2.slots.Le (second.run p).2.slots ∧
      (second.run (first.run p).2).1 = (second.run p).1 := by
  intro b first second
  obtain ⟨p, hp, hfails, hfilled, hkept⟩ : ∃ p, b.prepare first.context "x - y" = .ok p ∧
      (first.run p).1.toOption = none ∧ 0 < (first.run p).2.slots.filled ∧
      ∀ i < (first.run p).2.slots.entries.size, ((first.run p).2.slots.get? i).isSome →
        ((first.run p).2.slots.get? i).bind Bound.param? = some (.i32, 0) ∧
          ((second.run p).2.slots.get? i).bind Bound.param? = some (.i32, 0) :=
    Except.exists_ok (by decide +kernel)
  obtain ⟨e, he⟩ := Except.exists_error hfails
  have hle : (first.run p).2.slots.Le (second.run p).2.slots := by
    refine ⟨(second.run_writes p).1.size_eq.trans (first.run_writes p).1.size_eq.symm,
      fun {i v} hv => ?_⟩
    obtain ⟨hfirst, hsecond⟩ := hkept i (Slots.lt_of_get? hv) (Option.isSome_of_eq_some hv)
    obtain ⟨w, hw, hparam⟩ := Option.bind_eq_some_iff.mp hsecond
    rw [hv] at hfirst
    rw [hw, Bound.eq_param hparam, Bound.eq_param hfirst]
  exact ⟨p, e, hp, he, hfilled, hle, (call_after_failure hp first second he).2.2.2 hle⟩

/-- A binding that a failed call leaves behind stays, also where the second call gives its parameter
another type: here the difference of two whole numbers is a floating one. -/
theorem type_after_failure :
    let b : Binder := ⟨(Registry.standard []).host, .standard, false⟩
    let first : Call := ⟨b, ⟨none, [⟨"x", .f64⟩]⟩⟩
    let second : Call := ⟨b, ⟨none, [⟨"x", .i32⟩, ⟨"y", .i32⟩]⟩⟩
    ∃ p, b.prepare first.context "x - y" = .ok p ∧ (first.run p).1.toOption = none ∧
      (second.run p).1.toOption.map (·.root.ty) = some .i32 ∧
      (second.run (first.run p).2).1.toOption.map (·.root.ty) = some .f64 :=
  Except.exists_ok (by decide +kernel)

end Binder

end Formula
