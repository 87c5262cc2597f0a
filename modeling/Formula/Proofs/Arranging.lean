import Formula.Node.Arrange
import Formula.Proofs.Numbering
import Formula.Proofs.Outcome

/-!
# The numbers of an arranged tree

Arranging drops the parentheses of casts and makes new nodes; all others it keeps, each once. So a
tree with distinct numbers below the count of nodes is arranged to one with distinct numbers below
the new count (`Node.arrange_numbered`).

`Grows S k T k'`: from the distinct numbers `S` below `k`, numbers were dropped and others given out
while the count went from `k` to `k'`; `T` is what is left.
-/

namespace Formula

namespace Arranging

variable {α β : Type}

theorem bind_ok {x : Arranging α} {f : α → Arranging β} {k : Nat} {r : β × Nat}
    (h : (x >>= f).run k = .ok r) : ∃ a k₁, x.run k = .ok (a, k₁) ∧ (f a).run k₁ = .ok r := by
  rw [StateT.run_bind] at h
  obtain ⟨⟨a, k₁⟩, hx, hf⟩ := Except.bind_ok h
  exact ⟨a, k₁, hx, hf⟩

theorem bind_error {x : Arranging α} {f : α → Arranging β} {k : Nat} {e : BuildError}
    (h : (x >>= f).run k = .error e) :
    x.run k = .error e ∨ ∃ a k₁, x.run k = .ok (a, k₁) ∧ (f a).run k₁ = .error e := by
  rw [StateT.run_bind] at h
  rcases hx : x.run k with e' | ⟨a, k₁⟩
  · rw [hx] at h
    cases h
    exact .inl rfl
  · rw [hx] at h
    exact .inr ⟨a, k₁, rfl, h⟩

theorem pure_ok {a : α} {k : Nat} {r : α × Nat} (h : (pure a : Arranging α).run k = .ok r) :
    r = (a, k) := by
  cases h
  rfl

theorem throw_ok {e : BuildError} {k : Nat} {r : α × Nat}
    (h : (throw e : Arranging α).run k = .ok r) : False := by
  cases h

theorem newMark_ok {offset k : Nat} {r : Mark × Nat} (h : (newMark offset).run k = .ok r) :
    r = (⟨k, offset⟩, k + 1) := by
  cases h
  rfl

end Arranging

/-- What is left of the distinct numbers `S` below `k`, with numbers from `k` to `k'`. -/
structure Grows (S : List Nat) (k : Nat) (T : List Nat) (k' : Nat) : Prop where
  le : k ≤ k'
  nodup : T.Nodup
  mem : ∀ i ∈ T, i ∈ S ∨ k ≤ i ∧ i < k'

namespace Grows

variable {S S' T T' : List Nat} {k k' k'' : Nat}

theorem refl (h : Below S k) : Grows S k S k := ⟨Nat.le_refl k, h.1, fun _ hi => .inl hi⟩

theorem below (h : Grows S k T k') (hS : Below S k) : Below T k' := by
  refine ⟨h.nodup, fun i hi => ?_⟩
  rcases h.mem i hi with hi | hi
  · exact Nat.lt_of_lt_of_le (hS.2 i hi) h.le
  · exact hi.2

theorem trans (h : Grows S k S' k') (h' : Grows S' k' T k'') : Grows S k T k'' := by
  refine ⟨Nat.le_trans h.le h'.le, h'.nodup, fun i hi => ?_⟩
  have hle := h.le
  have hle' := h'.le
  rcases h'.mem i hi with hi | hi
  · rcases h.mem i hi with hi | hi
    · exact .inl hi
    · exact .inr (by omega)
  · exact .inr (by omega)

/-- A second part, numbered after the first one. -/
theorem append (hT : Grows S k T k') (hT' : Grows S' k' T' k'') (hS : Below (S' ++ S) k) :
    Grows (S' ++ S) k (T' ++ T) k'' := by
  have hle := hT.le
  have hle' := hT'.le
  refine ⟨Nat.le_trans hle hle', List.nodup_append.mpr ⟨hT'.nodup, hT.nodup, ?_⟩, fun i hi => ?_⟩
  · rintro i hi _ hj rfl
    have hS' := hS.of_append.1.2 i
    have hS₀ := hS.of_append.2.2 i
    have hne : i ∈ S' → i ∉ S := fun h1 h2 => (List.nodup_append.mp hS.1).2.2 i h1 i h2 rfl
    rcases hT'.mem i hi with h1 | h1 <;> rcases hT.mem i hj with h2 | h2
    · exact hne h1 h2
    · have := hS' h1
      omega
    · have := hS₀ h2
      omega
    · omega
  · rcases List.mem_append.mp hi with hi | hi
    · rcases hT'.mem i hi with h | h
      · exact .inl (List.mem_append_left _ h)
      · exact .inr (by omega)
    · rcases hT.mem i hi with h | h
      · exact .inl (List.mem_append_right _ h)
      · exact .inr (by omega)

/-- A number that was given out to something else is not among them. -/
theorem not_mem (h : Grows S k T k') {i : Nat} (hi : i ∉ S) (hk : i < k) : i ∉ T := by
  intro hmem
  rcases h.mem i hmem with hS | hnew
  · exact hi hS
  · omega

theorem mem_cons (h : Grows S k T k') (i₀ : Nat) : ∀ i ∈ i₀ :: T, i ∈ i₀ :: S ∨ k ≤ i :=
  List.forall_mem_cons.mpr ⟨.inl List.mem_cons_self,
    fun i hi => (h.mem i hi).imp (List.mem_cons_of_mem i₀) And.left⟩

/-- The numbers may be listed in any order. -/
theorem perm (h : Grows S k T k') (hS : ∀ i ∈ S, i ∈ S') (hT : T.Perm T') : Grows S' k T' k' := by
  refine ⟨h.le, hT.nodup_iff.mp h.nodup, fun i hi => ?_⟩
  rcases h.mem i (hT.mem_iff.mpr hi) with hi | hi
  · exact .inl (hS i hi)
  · exact .inr hi

/-- The next number is given out. -/
theorem node (h : Grows S k T k') (hS : Below S k) : Grows S k (k' :: T) (k' + 1) := by
  have hle := h.le
  refine ⟨Nat.le_succ_of_le h.le, List.nodup_cons.mpr ⟨fun hk => ?_, h.nodup⟩, fun i hi => ?_⟩
  · exact Nat.lt_irrefl _ ((h.below hS).2 k' hk)
  · rcases List.mem_cons.mp hi with rfl | hi
    · exact .inr (by omega)
    · rcases h.mem i hi with hi | hi
      · exact .inl hi
      · exact .inr (by omega)

end Grows

/-! ## Pending nodes -/

/-- The numbers of the nodes that wait. -/
def pendingSlots (ps : List Pending) : List Nat := Node.slotsAll (ps.map Pending.node)

/-- Finishing a node keeps some of its numbers and gives out others. -/
def Pending.Numbered (p : Pending) : Prop :=
  ∀ depth k t k', Below p.node.slots k → (p.finish depth).run k = .ok (t, k') →
    Grows p.node.slots k t.slots k'

theorem pendingSlots_cons (p : Pending) (ps : List Pending) :
    pendingSlots (p :: ps) = p.node.slots ++ pendingSlots ps := rfl

theorem pendingSlots_append (ps qs : List Pending) :
    pendingSlots (ps ++ qs) = pendingSlots ps ++ pendingSlots qs := by
  simp [pendingSlots, Node.slotsAll_append]

theorem pendingSlots_perm {ps qs : List Pending} (h : ps.Perm qs) :
    (pendingSlots ps).Perm (pendingSlots qs) := by
  induction h with
  | nil => exact .refl _
  | cons p _ ih => exact ih.append_left _
  | swap p q ps =>
    simp only [pendingSlots_cons, ← List.append_assoc]
    exact List.perm_append_comm.append_right _
  | trans _ _ ih ih' => exact ih.trans ih'

theorem finishAll_numbered {ps : List Pending} (hps : ∀ p ∈ ps, p.Numbered) {level : Node → Nat}
    {k k' : Nat} {ns : List Node} (hk : Below (pendingSlots ps) k)
    (h : (finishAll level ps).run k = .ok (ns, k')) :
    Grows (pendingSlots ps) k (Node.slotsAll ns) k' := by
  induction ps generalizing ns k' with
  | nil =>
    cases Arranging.pure_ok h
    exact .refl hk
  | cons p ps ih =>
    obtain ⟨rest, k₁, h₁, h⟩ := Arranging.bind_ok h
    obtain ⟨n, k₂, h₂, h⟩ := Arranging.bind_ok h
    cases Arranging.pure_ok h
    have hrest := ih (fun q hq => hps q (List.mem_cons_of_mem p hq)) hk.of_append.2 h₁
    have hp := hps p List.mem_cons_self _ _ _ _ (hk.of_append.1.mono hrest.le) h₂
    exact hrest.append hp hk

/-! ## Casts -/

theorem leadingOperators_append (ps : List Pending) :
    ∃ front, ps = front ++ (leadingOperators ps).2 ∧
      front.map Pending.node = (leadingOperators ps).1.map fun s => .operator s.1 s.2 := by
  induction ps with
  | nil => exact ⟨[], rfl, rfl⟩
  | cons p rest ih =>
    obtain ⟨front, hf, hn⟩ := ih
    unfold leadingOperators
    split
    · rename_i mark op hp
      exact ⟨p :: front, by simp [← hf], by simp [hp, hn]⟩
    · exact ⟨[], rfl, rfl⟩

private theorem slotsAll_operators (signs : List (Mark × Operator)) :
    Node.slotsAll (signs.map fun s => .operator s.1 s.2) = signs.map (·.1.slot) := by
  induction signs with
  | nil => rfl
  | cons s signs ih => simp [Node.slotsAll, Node.slots, ih]

/-- The first item of a block is passed on, or it is a type in parentheses and forms a cast with
what was made of the items after it. -/
theorem Scope.casts_cons_ok {s : Scope} {p : Pending} {rest qs : List Pending} {k k' : Nat}
    (h : (s.casts (p :: rest)).run k = .ok (qs, k')) :
    ∃ rest' k₁, (s.casts rest).run k = .ok (rest', k₁) ∧
      (s.castTarget? p.node = none ∧ qs = p :: rest' ∧ k' = k₁ ∨
        ∃ target operand after, s.castTarget? p.node = some target ∧
          (leadingOperators rest').2 = operand :: after ∧ k' = k₁ + 2 ∧
          qs = s.pendCast ⟨k₁ + 1, p.node.offset⟩ ⟨k₁, p.node.offset⟩ target
            (leadingOperators rest').1 operand :: after) := by
  obtain ⟨rest', k₁, h₁, h⟩ := Arranging.bind_ok h
  refine ⟨rest', k₁, h₁, ?_⟩
  cases ht : s.castTarget? p.node with
  | none =>
    rw [ht] at h
    cases Arranging.pure_ok h
    exact .inl ⟨rfl, rfl, rfl⟩
  | some target =>
    rw [ht] at h
    rcases hl : leadingOperators rest' with ⟨signs, _ | ⟨operand, after⟩⟩
    · rw [hl] at h
      exact (Arranging.throw_ok h).elim
    · rw [hl] at h
      obtain ⟨typeMark, k₂, h₂, h⟩ := Arranging.bind_ok h
      cases Arranging.newMark_ok h₂
      obtain ⟨mark, k₃, h₃, h⟩ := Arranging.bind_ok h
      cases Arranging.newMark_ok h₃
      cases Arranging.pure_ok h
      exact .inr ⟨target, operand, after, rfl, rfl, rfl, rfl⟩

theorem Scope.checkDepth_ok {s : Scope} {depth k : Nat} {r : Unit × Nat}
    (h : (s.checkDepth depth).run k = .ok r) : depth ≤ s.limit ∧ r = ((), k) := by
  unfold Scope.checkDepth at h
  split at h
  · exact (Arranging.throw_ok h).elim
  · rename_i hd
    exact ⟨Nat.le_of_not_lt hd, Arranging.pure_ok h⟩

theorem Scope.checkSigns_ok {s : Scope} {depth k : Nat} {signs : List (Mark × Operator)}
    {r : Unit × Nat} (h : (s.checkSigns depth signs).run k = .ok r) :
    (∀ sign ∈ signs, sign.2 ≠ .bar) ∧ r = ((), k) := by
  unfold Scope.checkSigns at h
  simp only at h
  split at h
  · split at h
    · exact (Arranging.throw_ok h).elim
    · split at h
      · exact (Arranging.throw_ok h).elim
      · exact (Arranging.throw_ok h).elim
  · rename_i hnone
    refine ⟨fun sign hsign hbar => ?_, Arranging.pure_ok h⟩
    have hmem : sign ∈ signs.filter (·.2 = .bar) := List.mem_filter.mpr ⟨hsign, by simp [hbar]⟩
    cases hh : signs.head? with
    | none => simp [List.head?_eq_none_iff.mp hh] at hsign
    | some first =>
      cases hl : (signs.filter (·.2 = .bar)).getLast? with
      | none => simp [List.getLast?_eq_none_iff.mp hl] at hmem
      | some last => exact hnone first last hh hl

/-- A cast is finished by finishing its operand. -/
theorem Scope.pendCast_ok {s : Scope} {mark typeMark : Mark} {target : TypeName}
    {signs : List (Mark × Operator)} {operand : Pending} {depth k k' : Nat} {t : Node}
    (h : ((s.pendCast mark typeMark target signs operand).finish depth).run k = .ok (t, k')) :
    depth ≤ s.limit ∧ (∀ sign ∈ signs, sign.2 ≠ .bar) ∧
      ∃ n, (operand.finish (itemDepth depth operand.node)).run k = .ok (n, k') ∧
        t = .cast mark typeMark target signs n := by
  obtain ⟨_, k₁, h₁, h⟩ := Arranging.bind_ok h
  obtain ⟨hdepth, he⟩ := Scope.checkDepth_ok h₁
  cases he
  obtain ⟨_, k₂, h₂, h⟩ := Arranging.bind_ok h
  obtain ⟨hsigns, he⟩ := Scope.checkSigns_ok h₂
  cases he
  obtain ⟨n, k₃, h₃, h⟩ := Arranging.bind_ok h
  cases Arranging.pure_ok h
  exact ⟨hdepth, hsigns, n, h₃, rfl⟩

theorem Scope.pendCast_numbered {s : Scope} {mark typeMark : Mark} {target : TypeName}
    {signs : List (Mark × Operator)} {operand : Pending} (h : operand.Numbered) :
    (s.pendCast mark typeMark target signs operand).Numbered := by
  intro depth k t k' hk hf
  obtain ⟨-, -, n, hn, rfl⟩ := Scope.pendCast_ok hf
  have hk' : Below ((mark.slot :: typeMark.slot :: signs.map (·.1.slot)) ++ operand.node.slots) k :=
    hk
  have hoperand := h _ _ _ _ hk'.of_append.2 hn
  exact hoperand.append (.refl (hk'.of_append.1.mono hoperand.le)) hk'

theorem Scope.casts_numbered {s : Scope} {ps qs : List Pending} (hps : ∀ p ∈ ps, p.Numbered)
    {k k' : Nat} (hk : Below (pendingSlots ps) k) (h : (s.casts ps).run k = .ok (qs, k')) :
    (∀ q ∈ qs, q.Numbered) ∧ Grows (pendingSlots ps) k (pendingSlots qs) k' := by
  induction ps generalizing qs k' with
  | nil =>
    cases Arranging.pure_ok h
    exact ⟨hps, .refl hk⟩
  | cons p rest ih =>
    obtain ⟨rest', k₁, h₁, hcase⟩ := Scope.casts_cons_ok h
    obtain ⟨hnum, hrest⟩ := ih (fun q hq => hps q (List.mem_cons_of_mem p hq)) hk.of_append.2 h₁
    rcases hcase with ⟨-, rfl, rfl⟩ | ⟨target, operand, after, -, hafter, rfl, rfl⟩
    · refine ⟨?_, hrest.append (.refl (hk.of_append.1.mono hrest.le)) hk⟩
      simpa using ⟨hps p List.mem_cons_self, hnum⟩
    · obtain ⟨front, hfront, hsigns⟩ := leadingOperators_append rest'
      rw [hafter] at hfront
      have hmem : ∀ q ∈ operand :: after, q.Numbered := fun q hq =>
        hnum q (by rw [hfront]; exact List.mem_append_right _ hq)
      refine ⟨?_, ?_⟩
      · intro q hq
        rcases List.mem_cons.mp hq with rfl | hq
        · exact Scope.pendCast_numbered (hmem operand List.mem_cons_self)
        · exact hmem q (List.mem_cons_of_mem _ hq)
      · -- the type in parentheses goes, its operators and its operand stay, and two nodes are new
        have hslots : pendingSlots (s.pendCast ⟨k₁ + 1, p.node.offset⟩ ⟨k₁, p.node.offset⟩ target
            (leadingOperators rest').1 operand :: after) =
            (k₁ + 1) :: k₁ :: pendingSlots rest' := by
          conv => rhs; rw [hfront, pendingSlots_append]
          simp [pendingSlots, hsigns, slotsAll_operators, Node.slots, Node.slotsAll,
            Scope.pendCast]
        rw [hslots]
        have hbelow := hk.of_append.2
        exact ((hrest.node hbelow).node hbelow).perm
          (fun i hi => List.mem_append_right _ hi) (.refl _)

/-! ## Products -/

theorem productRuns_flatten (ps : List Pending) : (productRuns ps).flatten = ps := by
  induction ps with
  | nil => rfl
  | cons p rest ih =>
    unfold productRuns
    split
    · rename_i op q run more hr
      rw [hr] at ih
      split <;> simp [← ih]
    · rename_i runs hr
      simp [ih]

/-- The numbers of a run and of the block that is made of it. -/
def runSlots (run : Option Mark × List Pending) : List Nat :=
  (run.1.toList.map Mark.slot) ++ pendingSlots run.2

private theorem markRun_numbered {run : List Pending} {marked : Option Mark × List Pending}
    {k k' : Nat} (hk : Below (pendingSlots run) k) (h : (markRun run).run k = .ok (marked, k')) :
    marked.2 = run ∧ Grows (pendingSlots run) k (runSlots marked) k' := by
  unfold markRun at h
  split at h
  · obtain ⟨mark, k₁, h₁, h⟩ := Arranging.bind_ok h
    cases Arranging.newMark_ok h₁
    cases Arranging.pure_ok h
    exact ⟨rfl, (Grows.refl hk).node hk⟩
  · cases Arranging.pure_ok h
    exact ⟨rfl, .refl hk⟩

theorem markRuns_numbered {runs : List (List Pending)}
    {marked : List (Option Mark × List Pending)} {k k' : Nat}
    (hk : Below (pendingSlots runs.flatten) k) (h : (markRuns runs).run k = .ok (marked, k')) :
    marked.map (·.2) = runs ∧ Grows (pendingSlots runs.flatten) k (marked.flatMap runSlots) k' := by
  unfold markRuns at h
  split at h
  · cases Arranging.pure_ok h
    refine ⟨by simp [Function.comp_def], ?_⟩
    have hslots : (runs.map ((none : Option Mark), ·)).flatMap runSlots =
        pendingSlots runs.flatten := by
      clear hk h
      induction runs with
      | nil => rfl
      | cons run runs ih => simp_all [runSlots]
    rw [hslots]
    exact .refl hk
  · rename_i hlen
    clear hlen
    induction runs generalizing marked k with
    | nil =>
      rw [List.mapM_nil] at h
      cases Arranging.pure_ok h
      exact ⟨rfl, .refl hk⟩
    | cons run runs ih =>
      rw [List.mapM_cons] at h
      obtain ⟨first, k₁, h₁, h⟩ := Arranging.bind_ok h
      obtain ⟨more, k₂, h₂, h⟩ := Arranging.bind_ok h
      cases Arranging.pure_ok h
      rw [List.flatten_cons, pendingSlots_append] at hk ⊢
      obtain ⟨hrun, hfirst⟩ := markRun_numbered hk.of_append.1 h₁
      obtain ⟨hruns, hmore⟩ := ih (hk.of_append.2.mono hfirst.le) h₂
      refine ⟨by simp [hrun, hruns], ?_⟩
      have hall := hfirst.append hmore (hk.perm List.perm_append_comm)
      exact hall.perm (fun i hi => List.perm_append_comm.mem_iff.mp hi) List.perm_append_comm

theorem finishRuns_numbered {depth : Nat} {marked : List (Option Mark × List Pending)}
    (hps : ∀ run ∈ marked, ∀ p ∈ run.2, p.Numbered) {k k' : Nat} {ns : List Node}
    (hk : Below (marked.flatMap runSlots) k) (h : (finishRuns depth marked).run k = .ok (ns, k')) :
    Grows (marked.flatMap runSlots) k (Node.slotsAll ns) k' := by
  induction marked generalizing ns k' with
  | nil =>
    cases Arranging.pure_ok h
    exact .refl hk
  | cons run marked ih =>
    obtain ⟨mark, run⟩ := run
    obtain ⟨rest, k₁, h₁, h⟩ := Arranging.bind_ok h
    obtain ⟨items, k₂, h₂, h⟩ := Arranging.bind_ok h
    cases Arranging.pure_ok h
    rw [List.flatMap_cons] at hk ⊢
    have hrest := ih (fun r hr => hps r (List.mem_cons_of_mem _ hr)) hk.of_append.2 h₁
    have hrun := hk.of_append.1.mono hrest.le
    have hitems := finishAll_numbered (hps _ List.mem_cons_self) hrun.of_append.2 h₂
    have hblock : Grows (runSlots (mark, run)) k₁
        (mark.toList.map Mark.slot ++ Node.slotsAll items) k' :=
      hitems.append (.refl (hrun.of_append.1.mono hitems.le)) hrun
    have hall := hrest.append hblock hk
    cases mark with
    | none => simpa [Node.slotsAll_append] using hall
    | some mark => simpa [Node.slotsAll, Node.slots] using hall

theorem finishProducts_numbered {ps : List Pending} (hps : ∀ p ∈ ps, p.Numbered) {depth k k' : Nat}
    {ns : List Node} (hk : Below (pendingSlots ps) k)
    (h : (finishProducts depth ps).run k = .ok (ns, k')) :
    Grows (pendingSlots ps) k (Node.slotsAll ns) k' := by
  obtain ⟨marked, k₁, h₁, h⟩ := Arranging.bind_ok h
  obtain ⟨hruns, hmarked⟩ := markRuns_numbered (by rwa [productRuns_flatten]) h₁
  rw [productRuns_flatten] at hmarked
  refine hmarked.trans (finishRuns_numbered (fun run hrun p hp => hps p ?_) (hmarked.below hk) h)
  rw [← productRuns_flatten ps, ← hruns]
  exact List.mem_flatten.mpr ⟨run.2, List.mem_map_of_mem hrun, hp⟩

/-! ## Bars -/

/-- The call of `System.Math.Abs` on a block of the items, with the five nodes from `k` on. -/
def absNode (k offset : Nat) (items : List Node) : Node :=
  .route ⟨k + 4, offset⟩ .type [.member ⟨k + 1, offset⟩ "System" [],
    .member ⟨k + 2, offset⟩ "Math" [], .method ⟨k + 3, offset⟩ "Abs" [] [.block ⟨k, offset⟩ items]]

/-- The call on what stands between two bars, whose items wait. -/
def absPending (k offset : Nat) (inner : List Pending) : Pending where
  node := absNode k offset (inner.map Pending.node)
  finish depth := return absNode k offset (← finishProducts (depth + 1) inner)

theorem absCall_run (offset k : Nat) (inner : List Pending) :
    (absCall offset inner).run k = .ok (absPending k offset inner, k + 5) := rfl

theorem absNode_slots (k offset : Nat) (items : List Node) :
    (absNode k offset items).slots =
      (k + 4) :: (k + 1) :: (k + 2) :: (k + 3) :: k :: Node.slotsAll items := by
  simp [absNode, Node.slots, Node.slotsOfSegments, Node.slotsAll]

theorem absPending_numbered {inner : List Pending} (h : ∀ p ∈ inner, p.Numbered)
    (k₀ offset : Nat) : (absPending k₀ offset inner).Numbered := by
  intro depth k t k' hk hf
  obtain ⟨items, k₁, h₁, hf⟩ := Arranging.bind_ok hf
  cases Arranging.pure_ok hf
  have hslots : (absPending k₀ offset inner).node.slots =
      [k₀ + 4, k₀ + 1, k₀ + 2, k₀ + 3, k₀] ++ pendingSlots inner := absNode_slots _ _ _
  rw [hslots] at hk ⊢
  have hitems := finishProducts_numbered h hk.of_append.2 h₁
  have hall := hitems.append (.refl (hk.of_append.1.mono hitems.le)) hk
  rwa [absNode_slots]

/-- A step over the items of a block: an item other than a bar is passed; a bar opens a span, or
closes the innermost open one. -/
theorem Scope.bars_cons_ok {s : Scope} {depth : Nat} {spans : List (Nat × List Pending)}
    {before rest qs : List Pending} {p : Pending} {k k' : Nat}
    (h : (s.bars depth spans before (p :: rest)).run k = .ok (qs, k')) :
    p.node.operator? ≠ some .bar ∧
        (s.bars depth spans (p :: before) rest).run k = .ok (qs, k') ∨
      p.node.operator? = some .bar ∧ barOpens before = true ∧
        (s.bars depth ((p.node.offset, before) :: spans) [] rest).run k = .ok (qs, k') ∨
      p.node.operator? = some .bar ∧ barOpens before = false ∧
        ∃ offset outer spans', spans = (offset, outer) :: spans' ∧
          (s.bars depth spans' (absPending k offset before.reverse :: outer) rest).run (k + 5) =
            .ok (qs, k') := by
  unfold Scope.bars at h
  split at h
  · rename_i hbar
    split at h
    · rename_i hopen
      split at h
      · exact (Arranging.throw_ok h).elim
      · exact .inr (.inl ⟨hbar, hopen, h⟩)
    · rename_i hopen
      rcases spans with _ | ⟨⟨offset, outer⟩, spans⟩
      · exact (Arranging.throw_ok h).elim
      · obtain ⟨call, k₁, h₁, h⟩ := Arranging.bind_ok h
        rw [absCall_run] at h₁
        cases h₁
        exact .inr (.inr ⟨hbar, by simpa using hopen, offset, outer, spans, rfl, h⟩)
  · rename_i hbar
    exact .inl ⟨hbar, h⟩

theorem Scope.bars_nil_ok {s : Scope} {depth : Nat} {spans : List (Nat × List Pending)}
    {before qs : List Pending} {k k' : Nat}
    (h : (s.bars depth spans before []).run k = .ok (qs, k')) :
    spans = [] ∧ qs = before.reverse ∧ k' = k := by
  rcases spans with _ | ⟨⟨offset, outer⟩, spans⟩
  · cases Arranging.pure_ok h
    exact ⟨rfl, rfl, rfl⟩
  · exact (Arranging.throw_ok h).elim

/-- The items that wait while bars are replaced: those of the open spans, and those left over. -/
def barItems (spans : List (Nat × List Pending)) (before rest : List Pending) : List Pending :=
  before ++ (spans.flatMap (·.2) ++ rest)

theorem barItems_cons_perm (spans : List (Nat × List Pending)) (before rest : List Pending)
    (p : Pending) :
    (barItems spans before (p :: rest)).Perm (p :: barItems spans before rest) := by
  unfold barItems
  rw [← List.append_assoc, ← List.append_assoc]
  exact List.perm_middle

/-- Closing a span makes five nodes and keeps the numbers of the items. -/
theorem absPending_grows {inner more : List Pending} {k : Nat} (offset : Nat)
    (hk : Below (pendingSlots (inner ++ more)) k) :
    Grows (pendingSlots (inner ++ more)) k
      (pendingSlots (absPending k offset inner.reverse :: more)) (k + 5) := by
  have hnew := (((((Grows.refl hk).node hk).node hk).node hk).node hk).node hk
  refine hnew.perm (fun _ hi => hi) ?_
  have hslots : pendingSlots (absPending k offset inner.reverse :: more) =
      (k + 4) :: ([k + 1, k + 2, k + 3] ++ k :: pendingSlots (inner.reverse ++ more)) := by
    rw [pendingSlots_cons, pendingSlots_append]
    simp [absPending, absNode_slots, pendingSlots]
  rw [hslots]
  have hitems := pendingSlots_perm ((List.reverse_perm inner).symm.append_right more)
  exact .cons _ (.append (List.reverse_perm [k + 1, k + 2, k + 3]) (.cons _ hitems))

theorem Scope.bars_numbered {s : Scope} {depth : Nat} {spans : List (Nat × List Pending)}
    {before rest qs : List Pending} (hps : ∀ p ∈ barItems spans before rest, p.Numbered)
    {k k' : Nat} (hk : Below (pendingSlots (barItems spans before rest)) k)
    (h : (s.bars depth spans before rest).run k = .ok (qs, k')) :
    (∀ q ∈ qs, q.Numbered) ∧
      Grows (pendingSlots (barItems spans before rest)) k (pendingSlots qs) k' := by
  induction rest generalizing spans before k with
  | nil =>
    obtain ⟨rfl, rfl, rfl⟩ := Scope.bars_nil_ok h
    have hperm : (barItems [] before []).Perm before.reverse := by
      have hitems : barItems [] before [] = before := by simp [barItems]
      rw [hitems]
      exact (List.reverse_perm before).symm
    exact ⟨fun q hq => hps q (hperm.mem_iff.mpr hq),
      (Grows.refl hk).perm (fun _ hi => hi) (pendingSlots_perm hperm)⟩
  | cons p rest ih =>
    have hperm := barItems_cons_perm spans before rest p
    have hslots := pendingSlots_perm hperm
    have hmem : ∀ q ∈ barItems spans before rest, q.Numbered := fun q hq =>
      hps q (hperm.mem_iff.mpr (List.mem_cons_of_mem p hq))
    have hbelow := (hk.perm hslots).of_append.2
    -- the numbers of the items without the bar
    have hdrop : Grows (pendingSlots (barItems spans before (p :: rest))) k
        (pendingSlots (barItems spans before rest)) k :=
      (Grows.refl hbelow).perm
        (fun i hi => hslots.mem_iff.mpr (List.mem_append_right p.node.slots hi)) (.refl _)
    rcases Scope.bars_cons_ok h with
      ⟨-, hstep⟩ | ⟨-, -, hstep⟩ | ⟨-, -, offset, outer, spans', rfl, hstep⟩
    · have hnext : barItems spans (p :: before) rest = p :: barItems spans before rest := rfl
      rw [← hnext] at hperm hslots
      obtain ⟨hnum, hgrows⟩ :=
        ih (fun q hq => hps q (hperm.mem_iff.mpr hq)) (hk.perm hslots) hstep
      exact ⟨hnum, hgrows.perm (fun i hi => hslots.mem_iff.mpr hi) (.refl _)⟩
    · have hitems : barItems ((p.node.offset, before) :: spans) [] rest =
          barItems spans before rest := by simp [barItems]
      obtain ⟨hnum, hgrows⟩ := ih (by rwa [hitems]) (by rwa [hitems]) hstep
      rw [hitems] at hgrows
      exact ⟨hnum, hdrop.trans hgrows⟩
    · have hitems : barItems ((offset, outer) :: spans') before rest =
          before ++ barItems spans' outer rest := by simp [barItems]
      rw [hitems] at hmem hbelow hdrop
      have habs := absPending_grows offset hbelow
      have hnum : ∀ q ∈ barItems spans' (absPending k offset before.reverse :: outer) rest,
          q.Numbered := by
        intro q hq
        rcases List.mem_cons.mp hq with rfl | hq
        · exact absPending_numbered
            (fun q hq => hmem q (List.mem_append_left _ (List.mem_reverse.mp hq))) _ _
        · exact hmem q (List.mem_append_right _ hq)
      obtain ⟨hnum, hgrows⟩ := ih hnum (habs.below hbelow) hstep
      exact ⟨hnum, (hdrop.trans habs).trans hgrows⟩

/-! ## Trees -/

theorem Scope.finishBlock_ok {s : Scope} {depth k k' : Nat} {mark : Mark} {items : List Pending}
    {t : Node} (h : (s.finishBlock depth mark items).run k = .ok (t, k')) :
    ∃ ps k₁ qs k₂ ns, (s.casts items).run k = .ok (ps, k₁) ∧
      (s.bars depth [] [] ps).run k₁ = .ok (qs, k₂) ∧
      (finishProducts depth qs).run k₂ = .ok (ns, k') ∧ t = .block mark ns := by
  obtain ⟨_, k₀, h₀, h⟩ := Arranging.bind_ok h
  cases (Scope.checkDepth_ok h₀).2
  obtain ⟨ps, k₁, h₁, h⟩ := Arranging.bind_ok h
  obtain ⟨qs, k₂, h₂, h⟩ := Arranging.bind_ok h
  obtain ⟨ns, k₃, h₃, h⟩ := Arranging.bind_ok h
  cases Arranging.pure_ok h
  exact ⟨ps, k₁, qs, k₂, ns, h₁, h₂, h₃, rfl⟩

theorem Scope.finishBlock_numbered {s : Scope} {depth k k' : Nat} {mark : Mark}
    {items : List Pending} (hps : ∀ p ∈ items, p.Numbered) {t : Node}
    (hk : Below (mark.slot :: pendingSlots items) k)
    (h : (s.finishBlock depth mark items).run k = .ok (t, k')) :
    Grows (mark.slot :: pendingSlots items) k t.slots k' := by
  obtain ⟨ps, k₁, qs, k₂, ns, h₁, h₂, h₃, rfl⟩ := Scope.finishBlock_ok h
  have hk' : Below ([mark.slot] ++ pendingSlots items) k := hk
  have hitems := hk'.of_append.2
  obtain ⟨hps, hcasts⟩ := Scope.casts_numbered hps hitems h₁
  have hstart : ∀ p ∈ barItems [] [] ps, p.Numbered := hps
  obtain ⟨hqs, hbars⟩ := Scope.bars_numbered hstart (hcasts.below hitems) h₂
  have hbefore := hcasts.trans hbars
  have hall := hbefore.trans (finishProducts_numbered hqs (hbefore.below hitems) h₃)
  exact hall.append (.refl (hk'.of_append.1.mono hall.le)) hk'

theorem finishSegments_numbered {segments : List (Segment Pending)}
    (hps : ∀ segment ∈ segments, ∀ p ∈ segment.args, p.Numbered) {depth k k' : Nat}
    {ts : List (Segment Node)}
    (hk : Below (Node.slotsOfSegments (segments.map (Segment.map Pending.node))) k)
    (h : (finishSegments depth segments).run k = .ok (ts, k')) :
    Grows (Node.slotsOfSegments (segments.map (Segment.map Pending.node))) k
      (Node.slotsOfSegments ts) k' := by
  induction segments generalizing ts k' with
  | nil =>
    cases Arranging.pure_ok h
    exact .refl hk
  | cons segment rest ih =>
    obtain ⟨ts', k₁, h₁, h⟩ := Arranging.bind_ok h
    have hk' : Below ((segment.mark.slot :: pendingSlots segment.args) ++
        Node.slotsOfSegments (rest.map (Segment.map Pending.node))) k := by
      cases segment <;> exact hk
    have hrest := ih (fun s hs => hps s (List.mem_cons_of_mem _ hs)) hk'.of_append.2 h₁
    have hargs : ∀ p ∈ segment.args, p.Numbered := hps segment List.mem_cons_self
    have hbelow : Below ([segment.mark.slot] ++ pendingSlots segment.args) k₁ :=
      hk'.of_append.1.mono hrest.le
    cases segment with
    | member mark name generics =>
      cases Arranging.pure_ok h
      exact hrest.append (.refl hbelow) hk'
    | method mark name generics args =>
      obtain ⟨ns, k₂, h₂, h⟩ := Arranging.bind_ok h
      cases Arranging.pure_ok h
      have hns := finishAll_numbered hargs hbelow.of_append.2 h₂
      exact hrest.append (hns.append (.refl (hbelow.of_append.1.mono hns.le)) hbelow) hk'
    | indexer mark args =>
      obtain ⟨ns, k₂, h₂, h⟩ := Arranging.bind_ok h
      cases Arranging.pure_ok h
      have hns := finishAll_numbered hargs hbelow.of_append.2 h₂
      exact hrest.append (hns.append (.refl (hbelow.of_append.1.mono hns.le)) hbelow) hk'

theorem Segment.args_map {α β : Type} (f : α → β) (s : Segment α) :
    (s.map f).args = s.args.map f := by
  cases s <;> rfl

namespace Node

@[simp]
theorem pend_node (s : Scope) : ∀ n : Node, (n.pend s).node = n
  | .cast mark typeMark target signs operand => by
    simp [pend, Scope.pendCast, pend_node s operand]
  | .constant .. | .operator .. | .route .. | .block .. | .unresolved .. => by simp [pend]

theorem pendAll_eq_map (s : Scope) (ns : List Node) : pendAll s ns = ns.map (pend s) := by
  induction ns with
  | nil => simp [pendAll]
  | cons n ns ih => simp [pendAll, ih]

theorem nodes_pend (s : Scope) (ns : List Node) : (ns.map (pend s)).map Pending.node = ns := by
  rw [List.map_map]
  exact (List.map_congr_left fun n _ => pend_node s n).trans (List.map_id ns)

theorem pendSegments_eq_map (s : Scope) (segments : List (Segment Node)) :
    pendSegments s segments = segments.map (Segment.map (pend s)) := by
  induction segments with
  | nil => simp [pendSegments]
  | cons segment rest ih =>
    cases segment <;> simp [pendSegments, Segment.map, pendAll_eq_map, ih]

theorem pendingSlots_pend (s : Scope) (ns : List Node) :
    pendingSlots (ns.map (pend s)) = slotsAll ns := by
  simp [pendingSlots, Function.comp_def]

/-- What holds of all arguments that wait. -/
theorem forall_pend_args {s : Scope} {P : Pending → Prop} {segments : List (Segment Node)}
    (h : ∀ segment ∈ segments, ∀ n ∈ segment.args, P (n.pend s)) :
    ∀ segment ∈ segments.map (Segment.map (pend s)), ∀ p ∈ segment.args, P p := by
  intro segment hs p hp
  obtain ⟨source, hsource, rfl⟩ := List.mem_map.mp hs
  rw [Segment.args_map] at hp
  obtain ⟨n, hn, rfl⟩ := List.mem_map.mp hp
  exact h source hsource n hn

theorem segments_pend (s : Scope) (segments : List (Segment Node)) :
    (segments.map (Segment.map (pend s))).map (Segment.map Pending.node) = segments := by
  rw [List.map_map]
  refine (List.map_congr_left fun segment _ => ?_).trans (List.map_id segments)
  cases segment <;> simp [Segment.map, Function.comp_def]

theorem pend_numbered (s : Scope) (n : Node) : (n.pend s).Numbered := by
  induction n using Node.induct with
  | block mark items ih =>
    intro depth k t k' hk h
    simp only [pend, pendAll_eq_map] at hk h ⊢
    rw [slots, ← pendingSlots_pend s] at hk ⊢
    exact Scope.finishBlock_numbered (by simpa using ih) hk h
  | cast mark typeMark target signs operand ih =>
    simp only [pend]
    exact Scope.pendCast_numbered ih
  | route mark head segments ih =>
    intro depth k t k' hk h
    simp only [pend, pendSegments_eq_map] at hk h ⊢
    obtain ⟨ts, k₁, h₁, h⟩ := Arranging.bind_ok h
    cases Arranging.pure_ok h
    have hpend := segments_pend s segments
    have hk' : Below ([mark.slot] ++ slotsOfSegments segments) k := hk
    have hts := finishSegments_numbered (forall_pend_args ih)
      (by rw [hpend]; exact hk'.of_append.2) h₁
    rw [hpend] at hts
    exact hts.append (.refl (hk'.of_append.1.mono hts.le)) hk'
  | constant | operator | unresolved =>
    intro depth k t k' hk h
    simp only [pend] at hk h ⊢
    cases Arranging.pure_ok h
    exact .refl hk

/-- Arranging keeps the numbers of a tree distinct and below the count of nodes. -/
theorem arrange_numbered {s : Scope} {root t : Node} {k k' : Nat} (hk : root.Numbered k)
    (h : (root.arrange s).run k = .ok (t, k')) : t.Numbered k' := by
  have hroot : Below (root.pend s).node.slots k := by rwa [pend_node]
  exact (pend_numbered s root 0 k t k' hroot h).below hroot

end Node

end Formula
