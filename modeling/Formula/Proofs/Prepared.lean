import Formula.Binder
import Formula.Proofs.Arranging
import Formula.Proofs.Reading
import Formula.Proofs.Transparency

/-!
# Prepared expressions

What preparing a text does, step by step, and what the first binding of a prepared expression is:
the meaning of its tree (`Binder.bind_eq_meaning`).
-/

namespace Formula.Binder

variable {b : Binder} {context : Context} {source : String} {p : Prepared}

/-- The scope a text is arranged in. -/
def scope (b : Binder) (context : Context) : Scope := ⟨b.host, context, b.limits.nesting⟩

/-- A text that is not too long is read, and then arranged. -/
theorem prepare_ok (h : b.prepare context source = .ok p) :
    source.utf8ByteSize ≤ b.limits.sourceLength ∧ ∃ root nodes,
      Node.ofSource b.limits.nesting source = .ok (root, nodes) ∧
        (root.arrange (b.scope context)).run nodes = .ok (p.root, p.nodes) ∧
        p.slots = .empty p.nodes := by
  unfold prepare at h
  split at h
  · cases h
  · rename_i hlength
    obtain ⟨⟨root, nodes⟩, hread, h⟩ := Except.bind_ok h
    obtain ⟨⟨root', nodes'⟩, harrange, h⟩ := Except.bind_ok h
    cases h
    exact ⟨Nat.le_of_not_lt hlength, root, nodes, hread, harrange, rfl⟩

/-- A text that is read is too long, or arranging it fails, if preparing it fails. -/
theorem prepare_error {root : Node} {nodes : Nat} {e : BuildError}
    (hread : Node.ofSource b.limits.nesting source = .ok (root, nodes))
    (h : b.prepare context source = .error e) :
    e = .limitExceeded .sourceLength b.limits.sourceLength ∨
      (root.arrange (b.scope context)).run nodes = .error e := by
  unfold prepare at h
  split at h
  · cases h
    exact .inl rfl
  · rw [hread] at h
    rcases Except.bind_error (x := (root.arrange (b.scope context)).run nodes) h with h | ⟨r, -, h⟩
    · exact .inr h
    · cases h

/-- The nodes of a prepared expression have distinct numbers, and nothing is kept for them yet. -/
theorem prepare_numbered (h : b.prepare context source = .ok p) :
    p.root.Numbered p.nodes ∧ p.slots = .empty p.nodes := by
  obtain ⟨-, root, nodes, hread, harrange, hslots⟩ := prepare_ok h
  exact ⟨Node.arrange_numbered (Node.ofSource_yields hread).1 harrange, hslots⟩

/-- **The first binding** of a prepared expression, in any context and by any binder, has the
meaning of its tree as its root. -/
theorem bind_eq_meaning (h : b.prepare context source = .ok p) (b' : Binder) (context' : Context) :
    (b'.bind context' p).1 = (p.root.meaning (b'.env context')).map
      fun root => ⟨root, context'.parameters, context'.base⟩ := by
  obtain ⟨hnumbered, hslots⟩ := prepare_numbered h
  have hfree : p.slots.FreeAt p.root.slots := fun i _ => by rw [hslots, Slots.get?_empty]
  rw [← Node.resolve_eq_meaning _ hnumbered.1 hfree]
  rfl

/-- Prepares a text in one context and binds it, for the first time, in another. -/
def firstBinding (b : Binder) (context context' : Context) (source : String) :
    Except BuildError Compiled := do
  let p ← b.prepare context source
  (b.bind context' p).1

/-- A compiled expression is the meaning of a tree with distinct numbers, and keeps the context it
was bound in. -/
theorem firstBinding_ok {context' : Context} {c : Compiled}
    (h : b.firstBinding context context' source = .ok c) :
    ∃ p, b.prepare context source = .ok p ∧ p.root.slots.Nodup ∧
      p.root.meaning (b.env context') = .ok c.root ∧ c.parameters = context'.parameters ∧
      c.base = context'.base := by
  obtain ⟨p, hp, hbind⟩ := Except.bind_ok h
  rw [bind_eq_meaning hp] at hbind
  obtain ⟨root, hroot, rfl⟩ := Except.map_ok hbind
  exact ⟨p, hp, (prepare_numbered hp).1.1, hroot, rfl, rfl⟩

end Formula.Binder
