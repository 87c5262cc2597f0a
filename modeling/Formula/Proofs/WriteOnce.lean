import Formula.Proofs.BindLogic
import Formula.Proofs.Prepared
import Formula.Registry.Standard

/-!
# Slots are written once

A prepared expression may be bound again and again, by any binders and in any contexts. Whatever the
calls are, its slots only fill up: a binding that is kept stays as it is, and what is kept anew is
what binding the node or the segment of that number has just succeeded with.

* `Slots.Le`: one state of the slots is an extension of another.
* `Resolving.Writes`: a computation extends the slots, by outcomes of such computations only;
  `Node.task_writes` says so of the binding of every node.
* `Binder.slots_written_once`: what follows for every sequence of calls.
-/

namespace Formula

namespace Slots

/-- All that is kept in `s` is kept in `s'`, which has as many slots. -/
structure Le (s s' : Slots) : Prop where
  size_eq : s'.entries.size = s.entries.size
  get?_eq {i : Nat} {b : Bound} : s.get? i = some b → s'.get? i = some b

theorem Le.refl (s : Slots) : s.Le s := ⟨rfl, fun h => h⟩

theorem Le.trans {s s' s'' : Slots} (h : s.Le s') (h' : s'.Le s'') : s.Le s'' :=
  ⟨h'.size_eq.trans h.size_eq, fun hb => h'.get?_eq (h.get?_eq hb)⟩

theorem Le.antisymm {s s' : Slots} (h : s.Le s') (h' : s'.Le s) : s = s' := by
  have hget : ∀ i, s.get? i = s'.get? i := fun i =>
    Option.ext fun b => ⟨h.get?_eq, h'.get?_eq⟩
  obtain ⟨entries⟩ := s
  obtain ⟨entries'⟩ := s'
  congr 1
  refine Array.ext h'.size_eq fun i hi hi' => ?_
  simpa [get?, hi, hi'] using hget i

theorem size_fill (s : Slots) (slot : Nat) (b : Bound) :
    (s.fill slot b).entries.size = s.entries.size := by
  simp [fill]

/-- Where there was nothing, filling a slot changes nothing that is kept. -/
theorem Le.fill {s s' : Slots} {slot : Nat} (h : s.Le s') (hfree : s.get? slot = none) (b : Bound) :
    s.Le (s'.fill slot b) := by
  refine ⟨(size_fill s' slot b).trans h.size_eq, fun {i v} hv => ?_⟩
  have his : i ≠ slot := by
    rintro rfl
    rw [hfree] at hv
    cases hv
  rw [get?_fill_ne s' b his]
  exact h.get?_eq hv

private theorem countP_isSome_le {l l' : List (Option Bound)} (hlength : l'.length = l.length)
    (h : ∀ (i : Nat) (b : Bound), (l[i]?).join = some b → (l'[i]?).join = some b) :
    l.countP Option.isSome ≤ l'.countP Option.isSome := by
  induction l generalizing l' with
  | nil => simp
  | cons x l ih =>
    cases l' with
    | nil => simp at hlength
    | cons x' l' =>
      have hrest := ih (Nat.succ.inj hlength) fun i b => h (i + 1) b
      have hfirst : x.isSome = true → x'.isSome = true := by
        intro hx
        obtain ⟨b, rfl⟩ := Option.isSome_iff_exists.mp hx
        have hx' : x' = some b := h 0 b rfl
        simp [hx']
      rw [List.countP_cons, List.countP_cons]
      cases hx : x.isSome with
      | false => simp only [Bool.false_eq_true, if_false]; omega
      | true => simp only [hfirst hx, if_true]; omega

/-- The number of filled slots never falls. -/
theorem Le.filled_le {s s' : Slots} (h : s.Le s') : s.filled ≤ s'.filled := by
  unfold filled
  rw [← Array.countP_toList, ← Array.countP_toList]
  refine countP_isSome_le (by simpa using h.size_eq) fun i b hb => ?_
  rw [Array.getElem?_toList] at hb ⊢
  exact h.get?_eq hb

end Slots

/-! ## What is kept anew -/

/-- From slots that extend `start`, where nothing is kept for the number `i`, one of the elements is
the one of this number, and binding it succeeds with `v`. -/
def BoundAnew (env : BindEnv) (elements : List Element) (start : Slots) (i : Nat)
    (v : Bound) : Prop :=
  ∃ e ∈ elements, e.mark.slot = i ∧ ∃ x slots slots', Resolves env e x ∧ start.Le slots ∧
    slots.get? i = none ∧ x.run slots = (.ok v, slots')

theorem BoundAnew.of_le {env : BindEnv} {elements : List Element} {start next : Slots} {i : Nat}
    {v : Bound} (hle : start.Le next) (h : BoundAnew env elements next i v) :
    BoundAnew env elements start i v := by
  obtain ⟨e, he, hi, x, slots, slots', hx, hnext, hrun⟩ := h
  exact ⟨e, he, hi, x, slots, slots', hx, hle.trans hnext, hrun⟩

/-- The computation extends the slots, and what it keeps anew comes from binding the element of that
number. -/
def Resolving.Writes {α : Type} (env : BindEnv) (elements : List Element)
    (x : Resolving α) : Prop :=
  ∀ slots : Slots, slots.Le (x.run slots).2 ∧ ∀ i v, slots.get? i = none →
    (x.run slots).2.get? i = some v → BoundAnew env elements slots i v

namespace Resolving.Writes

variable {α β : Type} {env : BindEnv} {elements : List Element}

/-- A computation that leaves the slots alone. -/
theorem of_same {x : Resolving α} (h : ∀ slots, (x.run slots).2 = slots) :
    Writes env elements x := by
  intro slots
  rw [h slots]
  refine ⟨.refl slots, fun i v hfree hv => ?_⟩
  rw [hfree] at hv
  cases hv

theorem pure (a : α) : Writes env elements (pure a : Resolving α) := of_same fun _ => rfl

theorem throw (e : BuildError) : Writes env elements (throw e : Resolving α) := of_same fun _ => rfl

theorem bind {x : Resolving α} {f : α → Resolving β} (hx : Writes env elements x)
    (hf : ∀ a, Writes env elements (f a)) : Writes env elements (x >>= f) := by
  intro slots
  obtain ⟨hle, hnew⟩ := hx slots
  rw [Resolving.run_bind]
  rcases hrun : x.run slots with ⟨e | a, next⟩
  · rw [hrun] at hle hnew
    exact ⟨hle, hnew⟩
  · rw [hrun] at hle hnew
    obtain ⟨hle', hnew'⟩ := hf a next
    refine ⟨hle.trans hle', fun i v hfree hv => ?_⟩
    cases hnext : next.get? i with
    | none => exact (hnew' i v hnext hv).of_le hle
    | some v' =>
      -- kept by the first step, so the second one did not touch it
      have hsame := hle'.get?_eq hnext
      rw [hv] at hsame
      cases hsame
      exact hnew i v hfree hnext

/-- The slot of an element is filled by binding the element. -/
theorem keep {e : Element} {x : Resolving Bound} (he : e ∈ elements) (hresolves : Resolves env e x)
    (hx : Writes env elements x) : Writes env elements (BindMonad.keep e.mark.slot x) := by
  intro slots
  cases hget : slots.get? e.mark.slot with
  | some b =>
    rw [Resolving.run_keep_filled x hget]
    refine ⟨.refl slots, fun i v hfree hv => ?_⟩
    rw [hfree] at hv
    cases hv
  | none =>
    rw [Resolving.run_keep x hget]
    obtain ⟨hle, hnew⟩ := hx slots
    rcases hrun : x.run slots with ⟨err | b, next⟩
    · rw [hrun] at hle hnew
      exact ⟨hle, hnew⟩
    · rw [hrun] at hle hnew
      refine ⟨hle.fill hget b, fun i v hfree hv => ?_⟩
      rcases Slots.of_get?_fill hv with ⟨rfl, rfl⟩ | ⟨-, hv⟩
      · exact ⟨e, he, rfl, x, slots, next, hresolves, .refl slots, hget, hrun⟩
      · exact hnew i v hfree hv

end Resolving.Writes

/-- After a success the outcome is kept, if there is a slot for it. -/
theorem Resolving.get?_of_run_keep {slot : Nat} {x : Resolving Bound}
    {slots slots' : Slots} {b : Bound}
    (h : (BindMonad.keep slot x : Resolving Bound).run slots = (.ok b, slots'))
    (hslot : slot < slots'.entries.size) : slots'.get? slot = some b := by
  cases hget : slots.get? slot with
  | some b' =>
    rw [Resolving.run_keep_filled x hget] at h
    cases h
    exact hget
  | none =>
    rw [Resolving.run_keep x hget] at h
    rcases hrun : x.run slots with ⟨e | b', next⟩
    · rw [hrun] at h
      cases h
    · rw [hrun] at h
      cases h
      exact Slots.get?_fill_self b (by rwa [Slots.size_fill] at hslot)

/-- Writing is a logic of binding, whatever a success means. -/
def writeLogic (env : BindEnv) (elements : List Element) : BindLogic env where
  holds _ x := x.Writes env elements
  kept e := e ∈ elements
  reported _ := True
  reported_zero := trivial
  ret _ := .pure _
  refuse _ := .throw _
  parse _ _ := .throw _
  bind hx hf := .bind hx hf
  keep he hresolves hx := .keep he hresolves hx

/-- **Binding a node only extends the slots**, by the bindings of elements of its tree. -/
theorem Node.task_writes (env : BindEnv) (n : Node) :
    Resolving.Writes env n.elements (n.task env).bind :=
  ((writeLogic env n.elements).task fun _ he => ⟨he, fun _ _ => trivial⟩).bind

/-! ## Sequences of calls -/

/-- A call: who binds, and in which context. -/
structure Call where
  binder : Binder
  context : Context

namespace Call

/-- The outcome of a call, and the prepared expression after it. -/
def run (call : Call) (p : Prepared) : Except BuildError Compiled × Prepared :=
  call.binder.bind call.context p

/-- What the call binds against. -/
def env (call : Call) : BindEnv := call.binder.env call.context

theorem run_writes (call : Call) (p : Prepared) :
    p.slots.Le (call.run p).2.slots ∧ ∀ i v, p.slots.get? i = none →
      (call.run p).2.slots.get? i = some v → BoundAnew call.env p.root.elements p.slots i v :=
  p.root.task_writes call.env p.slots

/-- A call that finds the root bound answers with it and changes nothing. -/
theorem run_of_kept (call : Call) {p : Prepared} {root : Bound}
    (h : p.slots.get? p.root.mark.slot = some root) :
    call.run p = (.ok ⟨root, call.context.parameters, call.context.base⟩, p) := by
  have hrun : (p.root.resolve call.env).run p.slots = (.ok root, p.slots) := by
    rw [Node.resolve, Node.task_eq_kept]
    exact Resolving.run_keep_filled _ h
  unfold run Binder.bind
  rw [← env, hrun]
  rfl

/-- A call that succeeds leaves the root bound, if the root has a slot. -/
theorem kept_of_run (call : Call) {p : Prepared} (hp : p.root.mark.slot < p.slots.entries.size)
    {c : Compiled} (h : (call.run p).1 = .ok c) :
    (call.run p).2.slots.get? p.root.mark.slot = some c.root := by
  have hsize := (call.run_writes p).1.size_eq
  unfold run Binder.bind at h hsize ⊢
  rcases hrun : (p.root.resolve call.env).run p.slots with ⟨e | root, slots⟩
  · rw [← env, hrun] at h
    cases h
  · rw [← env, hrun] at h hsize ⊢
    cases h
    rw [Node.resolve, Node.task_eq_kept] at hrun
    exact Resolving.get?_of_run_keep hrun (hsize ▸ hp)

end Call

namespace Prepared

/-- The prepared expression after calls. -/
def after (p : Prepared) (calls : List Call) : Prepared :=
  calls.foldl (fun q call => (call.run q).2) p

/-- There is a slot for each number, and the nodes of the tree have distinct ones. -/
structure Ready (p : Prepared) : Prop where
  numbered : p.root.Numbered p.nodes
  size_eq : p.slots.entries.size = p.nodes

theorem Ready.root_lt {p : Prepared} (h : p.Ready) : p.root.mark.slot < p.slots.entries.size := by
  rw [h.size_eq]
  exact h.numbered.2 _ (by cases p.root <;> simp [Node.slots, Node.mark])

theorem Ready.run {p : Prepared} (h : p.Ready) (call : Call) : (call.run p).2.Ready :=
  ⟨h.numbered, (call.run_writes p).1.size_eq.trans h.size_eq⟩

theorem after_root (p : Prepared) (calls : List Call) : (p.after calls).root = p.root := by
  induction calls generalizing p with
  | nil => rfl
  | cons call calls ih => exact ih (call.run p).2

theorem Ready.after {p : Prepared} (h : p.Ready) (calls : List Call) : (p.after calls).Ready := by
  induction calls generalizing p with
  | nil => exact h
  | cons call calls ih => exact ih (h.run call)

theorem slots_le_after (p : Prepared) (calls : List Call) : p.slots.Le (p.after calls).slots := by
  induction calls generalizing p with
  | nil => exact .refl _
  | cons call calls ih => exact (call.run_writes p).1.trans (ih (call.run p).2)

/-- Once the root is bound, calls change nothing. -/
theorem after_of_kept {p : Prepared} {root : Bound} (h : p.slots.get? p.root.mark.slot = some root)
    (calls : List Call) : p.after calls = p := by
  induction calls with
  | nil => rfl
  | cons call calls ih =>
    have hcall : (call.run p).2 = p := by rw [call.run_of_kept h]
    rw [after, List.foldl_cons, hcall]
    exact ih

end Prepared

namespace Binder

variable {b : Binder} {context : Context} {source : String} {p : Prepared}

theorem prepare_ready (h : b.prepare context source = .ok p) : p.Ready := by
  obtain ⟨hnumbered, hslots⟩ := prepare_numbered h
  refine ⟨hnumbered, ?_⟩
  rw [hslots]
  simp [Slots.empty]

/-- **Slots are written once.** Over every sequence of calls, each by its own binder and in its own
context: what is kept never changes, and the number of filled slots never falls; a call fills a slot
only by binding the node or segment of that number, with success; and once a call has succeeded,
every later one succeeds with the same root and leaves the slots as they are. -/
theorem slots_written_once (h : b.prepare context source = .ok p) (calls : List Call) (call : Call)
    (more : List Call) :
    let q := p.after calls
    let next := (call.run q).2
    (∀ i v, q.slots.get? i = some v → (q.after more).slots.get? i = some v) ∧
      q.slots.filled ≤ (q.after more).slots.filled ∧
      (∀ i v, q.slots.get? i = none → next.slots.get? i = some v →
        BoundAnew call.env p.root.elements q.slots i v) ∧
      ∀ c, (call.run q).1 = .ok c → ∀ later : Call,
        later.run (next.after more) =
          (.ok ⟨c.root, later.context.parameters, later.context.base⟩, next) := by
  intro q next
  have hle := q.slots_le_after more
  refine ⟨fun i v hv => hle.get?_eq hv, hle.filled_le, fun i v hfree hv => ?_, fun c hc later => ?_⟩
  · have hwrites := (call.run_writes q).2 i v hfree hv
    rwa [p.after_root calls] at hwrites
  · have hready : q.Ready := (prepare_ready h).after calls
    have hkept : next.slots.get? next.root.mark.slot = some c.root :=
      call.kept_of_run hready.root_lt hc
    rw [Prepared.after_of_kept hkept]
    exact later.run_of_kept hkept

/-- A call that knows one of two parameters fails and leaves a slot filled, the next one succeeds,
and its root is what a call that knows neither is given. -/
theorem slots_written_once_difference :
    let b : Binder := ⟨(Registry.standard []).host, .standard, false⟩
    let left : Call := ⟨b, ⟨none, [⟨"x", .f64⟩]⟩⟩
    let both : Call := ⟨b, ⟨none, [⟨"x", .i32⟩, ⟨"y", .i32⟩]⟩⟩
    let neither : Call := ⟨b, ⟨none, []⟩⟩
    ∃ p c, b.prepare neither.context "x - y" = .ok p ∧
      0 < (left.run p).2.slots.filled ∧ (both.run (left.run p).2).1 = .ok c ∧
      neither.run (both.run (left.run p).2).2 =
        (.ok ⟨c.root, [], none⟩, (both.run (left.run p).2).2) := by
  intro b left both neither
  obtain ⟨p, hp, hfilled, hboth⟩ : ∃ p, b.prepare neither.context "x - y" = .ok p ∧
      0 < (left.run p).2.slots.filled ∧
      (both.run (left.run p).2).1.toOption.any (fun _ => True) = true :=
    Except.exists_ok (by decide +kernel)
  obtain ⟨c, hc, -⟩ := Except.exists_ok hboth
  exact ⟨p, c, hp, hfilled, hc, (slots_written_once hp [left] both []).2.2.2 c hc neither⟩

end Binder

end Formula
