import Formula.Proofs.BindLogic
import Formula.Proofs.Deciding
import Formula.Proofs.Prepared
import Formula.Registry.Standard
import Mathlib.Data.List.Nodup

/-!
# Which texts are accepted

Binding decides whether a tree is well shaped: it succeeds with well-shaped trees only, and finds
fault with the shape of others only. Slots do not change this, as long as none is filled that
belongs to a part of the tree that is not well shaped.

* `Resolving.Decides G W x`: from slots filled only where `G` allows it, `x` succeeds only if `W`,
  reports a parse error only if not `W`, and fills further slots only where `G` allows it.
* `Node.task_decides`: binding a node decides whether it is well shaped.
* `Binder.blocks_exact`: the grammar of blocks is accepted exactly, however often a prepared text is
  bound.
-/

namespace Formula

open Grammar

/-- Slots are filled only where `G` allows it. -/
def Slots.FilledIn (G : Nat → Prop) (slots : Slots) : Prop := ∀ i, (slots.get? i).isSome → G i

/-- Success means `W`, a parse error means that `W` does not hold, and slots are filled only where
`G` allows it. -/
def Resolving.Decides {α : Type} (G : Nat → Prop) (W : Prop) (x : Resolving α) : Prop :=
  ∀ slots : Slots, slots.FilledIn G →
    (x.run slots).2.FilledIn G ∧
      match (x.run slots).1 with
      | .ok _ => W
      | .error e => e.isParse = true → ¬ W

namespace Resolving.Decides

variable {α β : Type} {G : Nat → Prop} {V W : Prop}

theorem pure {a : α} (h : W) : Decides G W (pure a : Resolving α) := fun _ hslots => ⟨hslots, h⟩

theorem throw {e : BuildError} (h : e.isParse = true → ¬ W) :
    Decides G W (throw e : Resolving α) := fun _ hslots => ⟨hslots, h⟩

theorem bind {x : Resolving α} {f : α → Resolving β} (hx : Decides G V x)
    (hf : ∀ a, Decides G W (f a)) : Decides G (V ∧ W) (x >>= f) := by
  intro slots hslots
  obtain ⟨hnext, houtcome⟩ := hx slots hslots
  rw [Resolving.run_bind]
  rcases hrun : x.run slots with ⟨e | a, next⟩
  · rw [hrun] at hnext houtcome
    exact ⟨hnext, fun hparse h => houtcome hparse h.1⟩
  · rw [hrun] at hnext houtcome
    obtain ⟨hlast, hresult⟩ := hf a next hnext
    refine ⟨hlast, ?_⟩
    rcases hrun' : ((f a).run next).1 with e | b
    · rw [hrun'] at hresult
      exact fun hparse h => hresult hparse h.2
    · rw [hrun'] at hresult
      exact ⟨houtcome, hresult⟩

/-- A slot that may be filled exactly if `W` holds. -/
theorem keep {slot : Nat} {x : Resolving Bound} (hslot : G slot ↔ W) (hx : Decides G W x) :
    Decides G W (BindMonad.keep slot x) := by
  intro slots hslots
  cases hget : slots.get? slot with
  | some b =>
    rw [Resolving.run_keep_filled x hget]
    exact ⟨hslots, hslot.mp (hslots slot (by simp [hget]))⟩
  | none =>
    rw [Resolving.run_keep x hget]
    obtain ⟨hnext, houtcome⟩ := hx slots hslots
    rcases hrun : x.run slots with ⟨e | b, next⟩
    · rw [hrun] at hnext houtcome
      exact ⟨hnext, houtcome⟩
    · rw [hrun] at hnext houtcome
      refine ⟨fun i hi => ?_, houtcome⟩
      by_cases his : i = slot
      · rw [his]
        exact hslot.mpr houtcome
      · rw [Slots.get?_fill_ne _ _ his] at hi
        exact hnext i hi

end Resolving.Decides

/-! ## Trees -/

/-- Deciding is a logic of binding, where slots may be filled for elements that are well shaped. -/
def decideLogic (G : Nat → Prop) (env : BindEnv) : BindLogic env where
  holds W x := x.Decides G W
  kept e := G e.mark.slot ↔ e.Shaped
  reported _ := True
  reported_zero := trivial
  ret h := .pure h
  refuse he := .throw fun hparse => by simp [he] at hparse
  parse _ hW := .throw fun _ => hW
  bind hx hf := .bind hx hf
  keep hslot _ hx := .keep hslot hx

namespace Node

/-- Slots may be filled exactly where the shape of a tree allows it. -/
def Allows (G : Nat → Prop) (n : Node) : Prop := ∀ e ∈ n.elements, G e.mark.slot ↔ e.Shaped

/-- **Binding a node decides whether it is well shaped.** -/
theorem task_decides {G : Nat → Prop} (env : BindEnv) {n : Node} (hG : n.Allows G) :
    ((n.task env).bind : Resolving Bound).Decides G n.WellShaped :=
  ((decideLogic G env).task fun e he => ⟨hG e he, fun _ _ => trivial⟩).bind

theorem elementsAll_sublist {ns : List Node}
    (h : ∀ n ∈ ns, (n.elements.map (·.mark.slot)).Sublist n.slots) :
    ((elementsAll ns).map (·.mark.slot)).Sublist (slotsAll ns) := by
  induction ns with
  | nil => exact .slnil
  | cons n ns ih =>
    obtain ⟨hn, hns⟩ := List.forall_mem_cons.mp h
    rw [elementsAll, slotsAll, List.map_append]
    exact hn.append (ih hns)

private theorem elementsOfSegments_sublist {segments : List (Segment Node)}
    (h : ∀ segment ∈ segments, ∀ n ∈ segment.args, (n.elements.map (·.mark.slot)).Sublist n.slots) :
    ((elementsOfSegments segments).map (·.mark.slot)).Sublist (slotsOfSegments segments) := by
  induction segments with
  | nil => exact .slnil
  | cons segment rest ih =>
    obtain ⟨hsegment, hrest⟩ := List.forall_mem_cons.mp h
    have hargs := elementsAll_sublist hsegment
    rw [elementsAll_eq] at hargs
    rw [elementsOfSegments_eq, List.flatMap_cons, ← elementsOfSegments_eq, slotsOfSegments_cons,
      List.map_append]
    exact (hargs.append (ih hrest)).cons_cons _

/-- The slots of elements are slots of the tree. -/
theorem elements_sublist (n : Node) : (n.elements.map (·.mark.slot)).Sublist n.slots := by
  induction n using Node.induct with
  | constant | operator | unresolved => simp [elements, slots, Element.mark, mark]
  | cast mark typeMark target signs operand ih =>
    simp only [elements, slots, List.map_cons]
    exact ((ih.trans (List.sublist_append_right _ _)).cons _).cons_cons _
  | block mark items ih =>
    simp only [elements, slots, List.map_cons]
    exact (elementsAll_sublist ih).cons_cons _
  | route mark head segments ih =>
    simp only [elements, slots, List.map_cons]
    exact (elementsOfSegments_sublist ih).cons_cons _

/-- If the numbers of a tree are distinct, a slot can be told to be filled only where its node is
well shaped. -/
theorem exists_allows {t : Node} (h : t.slots.Nodup) : ∃ G, t.Allows G := by
  refine ⟨fun i => ∀ e ∈ t.elements, e.mark.slot = i → e.Shaped, fun e he => ?_⟩
  refine ⟨fun hG => hG e he rfl, fun hshaped e' he' hslot => ?_⟩
  rwa [List.inj_on_of_nodup_map (t.elements_sublist.nodup h) he' he hslot]

end Node

/-! ## Texts -/

/-- Slots are filled only where the tree of a prepared expression allows it. -/
def Prepared.Consistent (p : Prepared) : Prop := ∃ G, p.root.Allows G ∧ p.slots.FilledIn G

namespace Binder

variable {b : Binder} {context : Context} {source : String} {root : Node} {nodes : Nat}

/-- Preparing a text decides whether its tree is formed. -/
theorem prepare_decides (hread : Node.ofSource b.limits.nesting source = .ok (root, nodes)) :
    match b.prepare context source with
    | .ok p => (p.root.WellShaped ↔ root.Formed (b.scope context)) ∧ p.Consistent
    | .error e => e.isParse = true → ¬ root.Formed (b.scope context) := by
  have hends := Node.pend_decides (b.scope context) root 0
  rcases hp : b.prepare context source with e | p
  · intro hparse
    rcases prepare_error hread hp with rfl | harrange
    · cases hparse
    · have hformed := (hends.error harrange hparse).2
      rwa [Node.pend_node] at hformed
  · obtain ⟨hnumbered, hslots⟩ := prepare_numbered hp
    obtain ⟨-, root', nodes', hread', harrange, -⟩ := prepare_ok hp
    cases hread.symm.trans hread'
    have hshape := (hends.ok harrange).2
    rw [Node.pend_node] at hshape
    obtain ⟨G, hG⟩ := Node.exists_allows hnumbered.1
    refine ⟨hshape, G, hG, fun i hi => ?_⟩
    rw [hslots, Slots.get?_empty] at hi
    cases hi

/-- Binding decides whether the tree is well shaped, and leaves slots filled as they may be. -/
theorem bind_decides {p : Prepared} (h : p.Consistent) (b' : Binder) (context' : Context) :
    (b'.bind context' p).2.Consistent ∧
      match (b'.bind context' p).1 with
      | .ok _ => p.root.WellShaped
      | .error e => e.isParse = true → ¬ p.root.WellShaped := by
  obtain ⟨G, hG, hslots⟩ := h
  obtain ⟨hnext, houtcome⟩ := Node.task_decides (b'.env context') hG p.slots hslots
  refine ⟨⟨G, hG, hnext⟩, ?_⟩
  simp only [bind, Node.resolve]
  rcases hrun : ((p.root.task (b'.env context')).bind : Resolving Bound).run p.slots with
    ⟨e | bound, slots⟩
  · rw [hrun] at houtcome
    exact houtcome
  · rw [hrun] at houtcome
    exact houtcome

/-- The prepared forms of a text: at first, and after bindings by any binders in any contexts. -/
inductive Reaches (b : Binder) (context : Context) (source : String) : Prepared → Prop
  | prepare {p : Prepared} (h : b.prepare context source = .ok p) : Reaches b context source p
  | bind {p : Prepared} (h : Reaches b context source p) (b' : Binder) (context' : Context) :
    Reaches b context source (b'.bind context' p).2

/-- Bindings keep the tree of a prepared text, which is well shaped if the text is formed. -/
theorem Reaches.invariant {p : Prepared} (h : b.Reaches context source p)
    (hread : Node.ofSource b.limits.nesting source = .ok (root, nodes)) :
    (p.root.WellShaped ↔ root.Formed (b.scope context)) ∧ p.Consistent := by
  induction h with
  | prepare h =>
    have hprepare := @prepare_decides b context source root nodes hread
    rwa [h] at hprepare
  | bind h b' context' ih => exact ⟨ih.1, (bind_decides ih.2 b' context').1⟩

/-- **The grammar of blocks is accepted exactly.** If a text is prepared and then bound, at the
first or at any later time, then every block that was read is an expression. If every block is one,
types in parentheses apart, then no parse error is reported, neither when the text is prepared nor
when it is bound. -/
theorem blocks_exact (hread : Node.ofSource b.limits.nesting source = .ok (root, nodes)) :
    (∀ p, b.Reaches context source p → ∀ (b' : Binder) (context' : Context) (c : Compiled),
        (b'.bind context' p).1 = .ok c →
          ∀ block ∈ root.blocks, IsExpr (block.items.map (b.scope context).token)) ∧
      ((∀ block ∈ root.blocks, (b.scope context).castTarget? block = none →
          IsExpr (block.items.map (b.scope context).token)) →
        (∀ e, b.prepare context source = .error e → e.isParse = false) ∧
          ∀ p, b.Reaches context source p → ∀ (b' : Binder) (context' : Context) (e : BuildError),
            (b'.bind context' p).1 = .error e → e.isParse = false) := by
  have hblocks := @Node.formed_iff_blocks (b.scope context) root (Node.ofSource_yields hread).2
  refine ⟨fun p hp b' context' c hc => ?_, fun hexpr => ?_⟩
  · obtain ⟨hshape, hconsistent⟩ := hp.invariant hread
    have hbind := (bind_decides hconsistent b' context').2
    rw [hc] at hbind
    exact hblocks.mp (hshape.mp hbind)
  · have hformed : root.Formed (b.scope context) := hblocks.mpr (Node.forall_blocks_iff.mp hexpr)
    refine ⟨fun e he => ?_, fun p hp b' context' e he => ?_⟩
    · have hprepare := @prepare_decides b context source root nodes hread
      rw [he] at hprepare
      exact Bool.eq_false_iff.mpr fun hparse => hprepare hparse hformed
    · obtain ⟨hshape, hconsistent⟩ := hp.invariant hread
      have hbind := (bind_decides hconsistent b' context').2
      rw [he] at hbind
      exact Bool.eq_false_iff.mpr fun hparse => hbind hparse (hshape.mpr hformed)

/-- A cast with a sign, bars and parentheses: three blocks, one of them a type. -/
theorem blocks_exact_cast_bars :
    let b : Binder := ⟨(Registry.standard []).host, .standard, false⟩
    let context : Context := ⟨none, [⟨"x", .i32⟩]⟩
    ∃ root nodes p c,
      Node.ofSource b.limits.nesting "(decimal)-x + |x * (1 + x)|" = .ok (root, nodes) ∧
      b.prepare context "(decimal)-x + |x * (1 + x)|" = .ok p ∧
      (b.bind context p).1 = .ok c ∧ root.blocks.length = 3 ∧
      ∀ block ∈ root.blocks, IsExpr (block.items.map (b.scope context).token) := by
  intro b context
  have hok : ((b.prepare context "(decimal)-x + |x * (1 + x)|").toOption.bind
      fun p => (b.bind context p).1.toOption).isSome = true := by
    decide +kernel
  obtain ⟨c, hc⟩ := Option.isSome_iff_exists.mp hok
  obtain ⟨p, hp, hc⟩ := Option.bind_eq_some_iff.mp hc
  have hp := Except.toOption_eq_some hp
  have hc := Except.toOption_eq_some hc
  obtain ⟨-, root, nodes, hread, -, -⟩ := prepare_ok hp
  have hlength : (Node.ofSource b.limits.nesting "(decimal)-x + |x * (1 + x)|").toOption.map
      (fun r => r.1.blocks.length) = some 3 := by
    decide +kernel
  rw [hread] at hlength
  exact ⟨root, nodes, p, c, hread, hp, hc, Option.some.inj hlength,
    (blocks_exact hread).1 p (.prepare hp) b context c hc⟩

end Binder

end Formula
