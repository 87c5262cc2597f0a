import Formula.Proofs.ProductRuns
import Formula.Proofs.Reading

/-!
# What the passes keep

`Q d n` is a property of the nodes that arranging makes, with `d` the level of nesting they stand
at. `Scope.Keeps` lists the ways a node comes about, with what is known of its parts. If `Q` holds
along all of them, a tree that was read and is `Good` is arranged to one with `Q`
(`Scope.Keeps.arrange`). `Scope.keeps_mentions`, `Scope.keeps_literals`: so it is with the names
that routes start with, with type arguments and with constants.

What is known of the items of a block is that there is nothing left to arrange (`Scope.Arranged`):
no bar, no type in parentheses, and no product beside other items. Items are finished after that, so
finishing has to keep what the passes look at (`Scope.Stays`).

Levels matter while bars are replaced: the items before an open bar stand one level further out than
those behind it, and the bound was checked when the bar was opened.
-/

namespace Formula

/-! ## Items of blocks -/

variable {s : Scope}

theorem TypeName.ofPath?_args {path : List String} {args : List TypeName} {t : TypeName}
    (h : TypeName.ofPath? path args = some t) : t.args = args := by
  unfold TypeName.ofPath? at h
  split at h
  · cases h
  · cases h
    rfl

/-- The type arguments of a name are those of the type it names. -/
theorem Scope.namedType?_args {path : List String} {generics : List TypeName} {target : TypeName}
    (h : s.namedType? (path, generics) = some target) : target.args = generics := by
  cases path with
  | nil => cases h
  | cons first more =>
    rw [Scope.namedType?] at h
    split at h
    · cases h
    · split at h
      · cases h
      · exact TypeName.ofPath?_args (Option.filter_eq_some_iff.mp h).1

/-- A block that casts holds one dotted name, whose type arguments are those of the target. -/
theorem Scope.castTarget?_eq_some {n : Node} {target : TypeName}
    (h : s.castTarget? n = some target) :
    ∃ mark routeMark segments path, n = .block mark [.route routeMark .scope segments] ∧
      memberPath segments = some (path, target.args) := by
  unfold Scope.castTarget? at h
  split at h
  · rename_i mark routeMark segments
    obtain ⟨⟨path, generics⟩, hpath, htype⟩ := Option.bind_eq_some_iff.mp h
    rw [← Scope.namedType?_args htype] at hpath
    exact ⟨mark, routeMark, segments, path, rfl, hpath⟩
  · cases h

theorem Node.operator?_eq_some {n : Node} {op : Operator} (h : n.operator? = some op) :
    ∃ mark, n = .operator mark op := by
  cases n with
  | operator mark op' =>
    cases h
    exact ⟨mark, rfl⟩
  | _ => cases h

/-- The names of a route that starts in scope and is made of names only. -/
def Node.path? : Node → Option (List String × List TypeName)
  | .route _ .scope segments => memberPath segments
  | _ => none

theorem Node.path?_eq_some {n : Node} {path : List String × List TypeName}
    (h : n.path? = some path) :
    ∃ mark segments, n = .route mark .scope segments ∧ memberPath segments = some path := by
  unfold Node.path? at h
  split at h
  · exact ⟨_, _, rfl, h⟩
  · cases h

/-- Whether a block of one item casts depends on the names in it. -/
theorem Scope.castTarget?_of_path? {n t : Node} (h : t.path? = n.path?) (mark mark' : Mark) :
    s.castTarget? (.block mark' [t]) = s.castTarget? (.block mark [n]) := by
  have hnone : ∀ {n : Node} (mark : Mark), n.path? = none →
      s.castTarget? (.block mark [n]) = none := by
    intro n mark hn
    rw [Option.eq_none_iff_forall_ne_some]
    intro target htarget
    obtain ⟨_, _, _, _, he, hpath⟩ := castTarget?_eq_some htarget
    cases he
    cases hn.symm.trans hpath
  cases hn : n.path? with
  | none => rw [hnone mark hn, hnone mark' (h.trans hn)]
  | some path =>
    obtain ⟨_, _, rfl, hpath⟩ := Node.path?_eq_some hn
    obtain ⟨_, _, rfl, hpath'⟩ := Node.path?_eq_some (h.trans hn)
    simp only [Scope.castTarget?, hpath, hpath']

/-- What finishing keeps of a node. -/
structure Scope.Stays (s : Scope) (n t : Node) : Prop where
  isBlock : t.isBlock = n.isBlock
  operator? : t.operator? = n.operator?
  path? : t.path? = n.path?
  castTarget? : s.castTarget? n = none → s.castTarget? t = none

/-- The items of a block, as the passes leave them. -/
structure Scope.Arranged (s : Scope) (items : List Node) : Prop where
  ne_nil : items ≠ []
  noBar : ∀ n ∈ items, n.operator? ≠ some .bar
  noCast : ∀ n ∈ items, s.castTarget? n = none
  grouped : Grouped items

/-- What may stand in a block at level `d`: a node with `Q`, or the block of a product of such
nodes. -/
def ItemWith (s : Scope) (Q : Nat → Node → Prop) (d : Nat) (n : Node) : Prop :=
  Q (itemDepth d n) n ∨
    ∃ mark items, n = .block mark items ∧ s.Arranged items ∧ ∀ i ∈ items, Q (itemDepth d i) i

/-- A property that nodes have as they are made of parts that have it. -/
structure Scope.Keeps (s : Scope) (Good : Node → Prop) (Q : Nat → Node → Prop) : Prop where
  items {mark : Mark} {items : List Node} : Good (.block mark items) → ∀ n ∈ items, Good n
  args {mark : Mark} {head : RouteHead} {segments : List (Segment Node)} :
    Good (.route mark head segments) → ∀ segment ∈ segments, ∀ n ∈ segment.args, Good n
  noCast {mark typeMark : Mark} {target : TypeName} {signs : List (Mark × Operator)}
    {operand : Node} : ¬ Good (.cast mark typeMark target signs operand)
  constant {d : Nat} {mark : Mark} {v : Value} : Good (.constant mark v) → Q d (.constant mark v)
  operator {d : Nat} {mark : Mark} {op : Operator} : Good (.operator mark op) →
    Q d (.operator mark op)
  unresolved {d : Nat} {mark : Mark} {raw : String} :
    Good (.unresolved mark raw) → Q d (.unresolved mark raw)
  /-- The items `source` were read. -/
  block {d : Nat} {mark : Mark} {source items : List Node} :
    Good (.block mark source) → d ≤ s.limit → (source ≠ [] → s.Arranged items) →
      (∀ n ∈ items, ItemWith s Q d n) → Q d (.block mark items)
  /-- Arguments are finished one level further in. -/
  route {d : Nat} {mark : Mark} {head : RouteHead} {segments segments' : List (Segment Node)} :
    Good (.route mark head segments) →
      List.Forall₂ (Segment.Rel fun n t => t.isBlock = n.isBlock ∧ Q (d + 1) t) segments segments' →
      Q d (.route mark head segments')
  cast {d : Nat} {mark typeMark : Mark} {n : Node} {target : TypeName}
    {signs : List (Mark × Operator)} {operand : Node} :
    d ≤ s.limit → Good n → s.castTarget? n = some target → Q (itemDepth d operand) operand →
      Q d (.cast mark typeMark target signs operand)
  abs {d k offset : Nat} {mark : Mark} {items : List Node} :
    Good (.operator mark .bar) → d < s.limit → s.Arranged items →
      (∀ n ∈ items, ItemWith s Q (d + 1) n) → Q d (absNode k offset items)

/-- Finishing at level `d` makes a node with `Q`, and keeps what the passes look at. -/
def Pending.Makes (s : Scope) (Q : Nat → Node → Prop) (d : Nat) (p : Pending) : Prop :=
  (p.finish d).Ends (fun t => s.Stays p.node t ∧ Q d t) fun _ => True

/-- What waits in a block after casts are formed. -/
structure Pending.Formed (s : Scope) (Good : Node → Prop) (Q : Nat → Node → Prop) (p : Pending) :
    Prop where
  bar : p.node.operator? = some .bar → Good p.node
  noCast : s.castTarget? p.node = none
  makes : ∀ d, p.Makes s Q d

/-- What waits in a block at level `d` after bars are replaced. -/
structure Pending.Settled (s : Scope) (Q : Nat → Node → Prop) (d : Nat) (p : Pending) : Prop where
  noBar : p.node.operator? ≠ some .bar
  noCast : s.castTarget? p.node = none
  makes : p.Makes s Q (itemDepth d p.node)

variable {Good : Node → Prop} {Q : Nat → Node → Prop} {ps : List Pending} {d : Nat}

theorem itemDepth_congr {t n : Node} (h : t.isBlock = n.isBlock) (d : Nat) :
    itemDepth d t = itemDepth d n := by
  unfold itemDepth
  rw [h]

/-! ## Products -/

/-- Items that are finished one by one, of which none waits for another pass. -/
theorem arranged_of_forall₂ {items : List Node} (hne : ps ≠ []) (hps : ∀ p ∈ ps, p.Settled s Q d)
    (h : List.Forall₂ (fun p t => s.Stays p.node t) ps items) (hgrouped : Grouped items) :
    s.Arranged items where
  ne_nil := by
    rintro rfl
    exact hne (List.forall₂_nil_right_iff.mp h)
  noBar n hn := by
    obtain ⟨p, hp, hstays⟩ := exists_of_forall₂ h hn
    rw [hstays.operator?]
    exact (hps p hp).noBar
  noCast n hn := by
    obtain ⟨p, hp, hstays⟩ := exists_of_forall₂ h hn
    exact hstays.castTarget? (hps p hp).noCast
  grouped := hgrouped

theorem Piece.items_makes {many : Prop} {run : List Pending} {piece : List Node}
    (hrun : run ∈ productRuns ps) (h : ∀ p ∈ run, p.Settled s Q d)
    (hpiece : Piece (fun p t => s.Stays p.node t ∧ Q (itemDepth d p.node) t) many run piece) :
    ∀ n ∈ piece, n.operator? ≠ some .bar ∧ s.castTarget? n = none ∧ ItemWith s Q d n := by
  obtain ⟨items, hitems, hcase⟩ := hpiece
  have hstays := hitems.imp fun _ _ h => h.1
  have hq : ∀ i ∈ items, Q (itemDepth d i) i := by
    intro i hi
    obtain ⟨p, -, hstays, hq⟩ := exists_of_forall₂ hitems hi
    rwa [itemDepth_congr hstays.isBlock]
  have hgrouped : Grouped items := by
    refine grouped_of_single (fun p n h => h.operator?) hstays ?_
    exact Nat.le_of_eq (congrArg List.length (productRuns_run hrun))
  have harranged := arranged_of_forall₂ (ne_nil_of_mem_productRuns hrun) h hstays hgrouped
  rcases hcase with ⟨-, rfl⟩ | ⟨⟨-, hlong⟩, mark, rfl, -⟩
  · exact fun n hn => ⟨harranged.noBar n hn, harranged.noCast n hn, .inl (hq n hn)⟩
  · rw [hitems.length_eq] at hlong
    refine List.forall_mem_singleton.mpr ⟨nofun, ?_, .inr ⟨mark, items, rfl, harranged, hq⟩⟩
    rw [Option.eq_none_iff_forall_ne_some]
    intro target htarget
    obtain ⟨_, _, _, _, he, -⟩ := Scope.castTarget?_eq_some htarget
    cases he
    exact Nat.lt_irrefl 1 hlong

theorem finishProducts_makes (h : ∀ p ∈ ps, p.Settled s Q d) :
    (finishProducts d ps).Ends (fun ns => (∀ n ∈ ns, ItemWith s Q d n) ∧ (ps ≠ [] → s.Arranged ns) ∧
      (ns.length ≤ 1 → List.Forall₂ (fun p t => s.Stays p.node t) ps ns)) fun _ => True := by
  refine (finishProducts_ends fun p hp => (h p hp).makes).mono ?_ fun _ _ => trivial
  rintro _ ⟨pieces, rfl, hpieces⟩
  have hitems : ∀ n ∈ pieces.flatten, n.operator? ≠ some .bar ∧ s.castTarget? n = none ∧
      ItemWith s Q d n := by
    intro n hn
    obtain ⟨piece, hpiece, hn⟩ := List.mem_flatten.mp hn
    obtain ⟨run, hrun, hpiece⟩ := exists_of_forall₂ hpieces hpiece
    refine hpiece.items_makes hrun (fun p hp => h p ?_) n hn
    rw [← productRuns_flatten ps]
    exact List.mem_flatten.mpr ⟨run, hrun, hp⟩
  have hR : ∀ (p : Pending) (t : Node), s.Stays p.node t ∧ Q (itemDepth d p.node) t →
      t.operator? = p.node.operator? := fun _ _ h => h.1.operator?
  have hfew : pieces.flatten.length ≤ 1 →
      List.Forall₂ (fun p t => s.Stays p.node t) ps pieces.flatten :=
    fun hone => (forall₂_of_length_le_one hR hpieces hone).imp fun _ _ h => h.1
  refine ⟨fun n hn => (hitems n hn).2.2, fun hne => ?_, hfew⟩
  refine ⟨fun hnil => hne ?_, fun n hn => (hitems n hn).1, fun n hn => (hitems n hn).2.1,
    grouped_flatten hR hpieces⟩
  rw [hnil] at hfew
  exact List.forall₂_nil_right_iff.mp (hfew (Nat.zero_le 1))

/-! ## Segments -/

theorem Segment.Rel.imp {α β : Type} {R R' : α → β → Prop} (h : ∀ a b, R a b → R' a b)
    {s : Segment α} {t : Segment β} (hst : Segment.Rel R s t) : Segment.Rel R' s t := by
  cases hst with
  | member => exact .member _ _ _
  | method _ _ _ hargs => exact .method _ _ _ (hargs.imp h)
  | indexer _ hargs => exact .indexer _ (hargs.imp h)

/-- The names of a route do not depend on arguments. -/
theorem memberPath_congr {R : Node → Node → Prop} {segments segments' : List (Segment Node)}
    (h : List.Forall₂ (Segment.Rel R) segments segments') :
    memberPath segments' = memberPath segments := by
  induction h with
  | nil => rfl
  | cons hsegment hrest ih =>
    cases hsegment with
    | member =>
      rw [memberPath, memberPath, ih]
      cases hrest <;> rfl
    | method | indexer => rfl

/-- The segments of a route, which were finished, against those that were read. -/
theorem segments_of_pend {R : Node → Node → Prop} {segments segments' : List (Segment Node)}
    (h : List.Forall₂ (Segment.Rel fun p t => R p.node t) (segments.map (Segment.map (Node.pend s)))
      segments') : List.Forall₂ (Segment.Rel R) segments segments' := by
  rw [List.forall₂_map_left_iff] at h
  refine h.imp fun segment t ht => ?_
  cases segment with
  | member mark name generics =>
    cases ht
    exact .member mark name generics
  | method mark name generics args =>
    cases ht with
    | method _ _ _ hargs =>
      rw [List.forall₂_map_left_iff] at hargs
      exact .method mark name generics (hargs.imp fun n t h => by simpa using h)
  | indexer mark args =>
    cases ht with
    | indexer _ hargs =>
      rw [List.forall₂_map_left_iff] at hargs
      exact .indexer mark (hargs.imp fun n t h => by simpa using h)

/-! ## Bars -/

theorem absCall_ends {E : BuildError → Prop} (offset : Nat) (inner : List Pending) :
    (absCall offset inner).Ends (fun call => ∃ k, call = absPending k offset inner) E :=
  fun k => ⟨k, rfl⟩

/-- The spans that are open: an item that has `F` opened each of them, at a level within the bound,
and the items before it have `W` at that level. -/
def Scope.SpansAll (s : Scope) (F : Pending → Prop) (W : Nat → Pending → Prop) (d : Nat) :
    List (Nat × List Pending) → Prop
  | [] => True
  | (offset, outer) :: spans =>
    (∃ bar : Pending, F bar ∧ bar.node.operator? = some .bar ∧ bar.node.offset = offset) ∧
      d + spans.length < s.limit ∧ (∀ p ∈ outer, W (d + spans.length) p) ∧ SpansAll s F W d spans

/-- What stands behind the operators is an operand. -/
theorem leadingOperators_operand {operand : Pending} {after : List Pending}
    (h : (leadingOperators ps).2 = operand :: after) : operand.node.operator? = none := by
  induction ps with
  | nil => cases h
  | cons p rest ih =>
    obtain ⟨node, finish⟩ := p
    cases node with
    | operator mark op => exact ih h
    | _ =>
      cases h
      rfl

section

variable {F G : Pending → Prop} {W : Nat → Pending → Prop} {E : BuildError → Prop}

/-- **What items have after forming casts**: `G`, if those that are passed have it, and casts of
operands that have it. A cast stands where its type stood, and its signs where operators that have
`G` stood. -/
theorem Scope.casts_forall (hpass : ∀ {p}, F p → s.castTarget? p.node = none → G p)
    (hcast : ∀ {p operand : Pending} {target mark typeMark} {signs : List (Mark × Operator)}, F p →
      s.castTarget? p.node = some target → operand.node.operator? = none → G operand →
      mark.offset = p.node.offset → typeMark.offset = p.node.offset →
      (∀ sign ∈ signs, ∃ q, G q ∧ q.node = .operator sign.1 sign.2) →
      G (s.pendCast mark typeMark target signs operand))
    (herror : ∀ {p} fault, F p → E (.parse p.node.offset fault)) (h : ∀ p ∈ ps, F p) :
    (s.casts ps).Ends (fun qs => ∀ q ∈ qs, G q) E := by
  induction ps with
  | nil => exact .pure (by simp)
  | cons p rest ih =>
    obtain ⟨hp, hrest⟩ := List.forall_mem_cons.mp h
    unfold Scope.casts
    refine (ih hrest).bind fun rest' hrest' => ?_
    split
    · rename_i hnone
      exact .pure (List.forall_mem_cons.mpr ⟨hpass hp hnone, hrest'⟩)
    · rename_i target htarget
      obtain ⟨front, hfront, hnodes⟩ := leadingOperators_append rest'
      split
      · exact .throw (herror _ hp)
      · rename_i signs operand after hsplit
        have hnone := leadingOperators_operand (congrArg Prod.snd hsplit)
        rw [hsplit] at hfront hnodes
        rw [hfront, List.forall_mem_append, List.forall_mem_cons] at hrest'
        obtain ⟨hfront, hoperand, hafter⟩ := hrest'
        have hsigns : ∀ sign ∈ signs, ∃ q, G q ∧ q.node = .operator sign.1 sign.2 := by
          intro sign hsign
          have hnode :=
            List.mem_map_of_mem (f := fun s : Mark × Operator => Node.operator s.1 s.2) hsign
          rw [← hnodes] at hnode
          obtain ⟨q, hq, hnode⟩ := List.mem_map.mp hnode
          exact ⟨q, hfront q hq, hnode⟩
        refine (Arranging.Ends.newMark _).bind fun typeMark htype => ?_
        refine (Arranging.Ends.newMark _).bind fun mark hmark => .pure ?_
        exact List.forall_mem_cons.mpr ⟨hcast hp htarget hnone hoperand hmark htype hsigns, hafter⟩

/-- **What items have after replacing bars**: `W` at the level of the block, if those that are
passed have it, and calls on items that have it one level further in. A call stands where its first
bar stood. -/
theorem Scope.bars_forall (hpass : ∀ {d p}, F p → p.node.operator? ≠ some .bar → W d p)
    (habs : ∀ {d bar inner} (k), F bar → bar.node.operator? = some .bar → d < s.limit → inner ≠ [] →
      (∀ p ∈ inner, W (d + 1) p) → W d (absPending k bar.node.offset inner))
    (herror : ∀ {p} fault, F p → E (.parse p.node.offset fault)) (hdeep : E s.tooDeep)
    {spans : List (Nat × List Pending)} {before rest : List Pending}
    (hspans : s.SpansAll F W d spans) (hbefore : ∀ p ∈ before, W (d + spans.length) p)
    (hrest : ∀ p ∈ rest, F p) :
    (s.bars d spans before rest).Ends (fun qs => ∀ q ∈ qs, W d q) E := by
  induction rest generalizing spans before with
  | nil =>
    unfold Scope.bars
    split
    · exact .pure fun q hq => hbefore q (List.mem_reverse.mp hq)
    · obtain ⟨⟨bar, hbar, -, rfl⟩, -⟩ := hspans
      exact .throw (herror _ hbar)
  | cons p rest ih =>
    obtain ⟨hp, hrest⟩ := List.forall_mem_cons.mp hrest
    unfold Scope.bars
    split
    · rename_i hbar
      split
      · split
        · exact .throw hdeep
        · rename_i hlimit
          rw [Nat.not_le] at hlimit
          exact ih ⟨⟨p, hp, hbar, rfl⟩, hlimit, hbefore, hspans⟩ (by simp) hrest
      · rename_i hopens
        rcases spans with _ | ⟨⟨_, outer⟩, spans⟩
        · exact .throw (herror _ hp)
        · obtain ⟨⟨bar, hF, hbar, rfl⟩, hlimit, houter, hspans⟩ := hspans
          have hne : before.reverse ≠ [] := by
            rw [ne_eq, List.reverse_eq_nil_iff]
            rintro rfl
            exact hopens rfl
          -- the bar closes the innermost span, and the call takes its place in the outer one
          refine (absCall_ends _ before.reverse).bind ?_
          rintro _ ⟨k, rfl⟩
          have hinner : ∀ p ∈ before.reverse, W (d + spans.length + 1) p :=
            fun p hp => hbefore p (List.mem_reverse.mp hp)
          exact ih hspans (List.forall_mem_cons.mpr ⟨habs k hF hbar hlimit hne hinner, houter⟩)
            hrest
    · rename_i hbar
      exact ih hspans (List.forall_mem_cons.mpr ⟨hpass hp hbar, hbefore⟩) hrest

end

/-! ## Names that stand alone -/

/-- A pass leaves nothing of nothing only, and a dotted name alone only if it was alone. -/
structure KeepsNames (ps qs : List Pending) : Prop where
  nil : qs = [] → ps = []
  single {q : Pending} : qs = [q] → q.node.path? = none ∨ ps = [q]

theorem Scope.casts_names (s : Scope) (ps : List Pending) :
    (s.casts ps).Ends (KeepsNames ps) fun _ => True := by
  induction ps with
  | nil => exact .pure ⟨fun _ => rfl, fun h => by cases h⟩
  | cons p rest ih =>
    refine (Arranging.Ends.of_runs _).mono ?_ fun _ _ => trivial
    rintro qs ⟨k, k', hrun⟩
    obtain ⟨rest', k₁, hrest, ⟨-, rfl, -⟩ | ⟨target, operand, after, -, -, -, rfl⟩⟩ :=
      Scope.casts_cons_ok hrun
    · refine ⟨fun h => (List.cons_ne_nil _ _ h).elim, fun h => .inr ?_⟩
      cases h
      rw [(ih.ok hrest).nil rfl]
    · refine ⟨fun h => (List.cons_ne_nil _ _ h).elim, fun h => .inl ?_⟩
      cases h
      rfl

/-- The run over items of which some were passed, with some spans open. -/
theorem Scope.bars_names {spans : List (Nat × List Pending)} {before rest : List Pending} :
    (s.bars d spans before rest).Ends
      (fun qs => (qs = [] → spans = [] ∧ before.reverse ++ rest = []) ∧
      ∀ q, qs = [q] → q.node.path? = none ∨ spans = [] ∧ before.reverse ++ rest = [q])
        fun _ => True := by
  refine (Arranging.Ends.of_runs _).mono ?_ fun _ _ => trivial
  rintro qs ⟨k, k', hrun⟩
  induction rest generalizing spans before k with
  | nil =>
    obtain ⟨rfl, rfl, -⟩ := Scope.bars_nil_ok hrun
    rw [List.append_nil]
    exact ⟨fun h => ⟨rfl, h⟩, fun q h => .inr ⟨rfl, h⟩⟩
  | cons p rest ih =>
    rcases Scope.bars_cons_ok hrun with ⟨-, hstep⟩ | ⟨-, -, hstep⟩ |
      ⟨-, -, offset, outer, spans', -, hstep⟩
    · have hstep := ih _ hstep
      rwa [List.reverse_cons, List.append_assoc, List.singleton_append] at hstep
    · obtain ⟨hnil, hsingle⟩ := ih _ hstep
      exact ⟨fun h => (List.cons_ne_nil _ _ (hnil h).1).elim,
        fun q h => (hsingle q h).imp_right fun h => (List.cons_ne_nil _ _ h.1).elim⟩
    · -- the call that replaces the span is left, and it is no dotted name
      obtain ⟨hnil, hsingle⟩ := ih _ hstep
      refine ⟨fun h => absurd (hnil h).2 (by simp), fun q h => .inl ?_⟩
      rcases hsingle q h with hpath | ⟨-, hall⟩
      · exact hpath
      · have hcall : absPending k offset before.reverse ∈ [q] := hall ▸ by simp
        rw [← List.mem_singleton.mp hcall]
        rfl

namespace Scope.Keeps

variable (K : s.Keeps Good Q)

include K

/-! ## The passes -/

theorem pendCast {p operand : Pending} {target : TypeName} {mark typeMark : Mark}
    {signs : List (Mark × Operator)} (hgood : Good p.node)
    (htarget : s.castTarget? p.node = some target) (h : ∀ d, operand.Makes s Q d) (d : Nat) :
    (s.pendCast mark typeMark target signs operand).Makes s Q d := by
  refine (Arranging.Ends.of_runs _).mono ?_ fun _ _ => trivial
  rintro t ⟨k, k', hrun⟩
  obtain ⟨hdepth, -, n, hn, rfl⟩ := Scope.pendCast_ok hrun
  obtain ⟨hstays, hq⟩ := (h _).ok hn
  rw [← itemDepth_congr hstays.isBlock] at hq
  exact ⟨⟨rfl, rfl, rfl, fun _ => rfl⟩, K.cast hdepth hgood htarget hq⟩

theorem casts (h : ∀ p ∈ ps, Good p.node ∧ ∀ d, p.Makes s Q d) :
    (s.casts ps).Ends (fun qs => ∀ q ∈ qs, q.Formed s Good Q) fun _ => True :=
  Scope.casts_forall (fun hp hnone => ⟨fun _ => hp.1, hnone, hp.2⟩)
    (fun hp htarget _ hoperand _ _ _ => ⟨nofun, rfl, K.pendCast hp.1 htarget hoperand.makes⟩)
    (fun _ _ => trivial) h

theorem absPending {mark : Mark} (hbar : Good (.operator mark .bar)) {inner : List Pending}
    (hd : d < s.limit) (hne : inner ≠ []) (h : ∀ p ∈ inner, p.Settled s Q (d + 1))
    (k offset : Nat) :
    (absPending k offset inner).Settled s Q d := by
  refine ⟨nofun, rfl, (finishProducts_makes h).bind ?_⟩
  rintro items ⟨hitems, harranged, -⟩
  exact .pure ⟨⟨rfl, rfl, rfl, fun _ => rfl⟩, K.abs hbar hd (harranged hne) hitems⟩

theorem bars (h : ∀ p ∈ ps, p.Formed s Good Q) :
    (s.bars d [] [] ps).Ends (fun qs => ∀ q ∈ qs, q.Settled s Q d) fun _ => True := by
  refine Scope.bars_forall (fun hp hbar => ⟨hbar, hp.noCast, hp.makes _⟩) ?_
    (fun _ _ => trivial) trivial trivial (by simp) h
  intro d bar inner k hp hbar hlimit hne hinner
  obtain ⟨mark, hnode⟩ := Node.operator?_eq_some hbar
  exact K.absPending (hnode ▸ hp.bar hbar) hlimit hne hinner k _

/-! ## Trees -/

omit K in
/-- A block that does not cast is not finished to one that does: a name alone was alone in it. -/
theorem castTarget?_block {mark : Mark} {qs rs : List Pending} {ns : List Node}
    (hcasts : KeepsNames ps qs) (hbars : KeepsNames qs rs)
    (hproducts : ns.length ≤ 1 → List.Forall₂ (fun p t => s.Stays p.node t) rs ns)
    (hnone : s.castTarget? (.block mark (ps.map Pending.node)) = none) :
    s.castTarget? (.block mark ns) = none := by
  rw [Option.eq_none_iff_forall_ne_some]
  intro target htarget
  obtain ⟨_, routeMark, segments, path, he, hpath⟩ := castTarget?_eq_some htarget
  cases he
  obtain ⟨r, _, hstays, hnil, rfl⟩ := List.forall₂_cons_right_iff.mp (hproducts (Nat.le_refl 1))
  cases List.forall₂_nil_right_iff.mp hnil
  replace hpath : (Node.route routeMark .scope segments).path? = some (path, target.args) := hpath
  have hr := hstays.path?.symm.trans hpath
  rcases hbars.single rfl with hpath' | rfl
  · cases hr.symm.trans hpath'
  · rcases hcasts.single rfl with hpath' | rfl
    · cases hr.symm.trans hpath'
    · rw [List.map_singleton] at hnone
      cases hnone.symm.trans ((castTarget?_of_path? hstays.path?.symm mark mark).trans htarget)

theorem finishBlock {mark : Mark} (hgood : Good (.block mark (ps.map Pending.node)))
    (h : ∀ p ∈ ps, Good p.node ∧ ∀ d, p.Makes s Q d) (d : Nat) :
    (s.finishBlock d mark ps).Ends (fun t => s.Stays (.block mark (ps.map Pending.node)) t ∧ Q d t)
      fun _ => True := by
  refine ((s.checkDepth_ends d).mono (fun _ h => h) fun _ _ => trivial).bind fun _ hdepth => ?_
  refine ((K.casts h).and (s.casts_names ps)).bind ?_
  rintro qs ⟨hqs, hcasts⟩
  refine ((K.bars hqs).and bars_names).bind ?_
  rintro rs ⟨hrs, hnil, hsingle⟩
  have hbars : KeepsNames qs rs := ⟨fun h => (hnil h).2, fun h => (hsingle _ h).imp_right And.right⟩
  refine (finishProducts_makes hrs).bind ?_
  rintro ns ⟨hitems, harranged, hfew⟩
  refine .pure ⟨⟨rfl, rfl, rfl, castTarget?_block hcasts hbars hfew⟩,
    K.block hgood hdepth (fun hne => ?_) hitems⟩
  refine harranged fun hrs => hne ?_
  rw [hcasts.nil (hbars.nil hrs), List.map_nil]

/-- **What arranging makes of a node** has the property, at whatever level. -/
theorem pend (n : Node) (hn : Good n) (d : Nat) : (n.pend s).Makes s Q d := by
  induction n using Node.induct generalizing d with
  | block mark items ih =>
    have hnodes := Node.nodes_pend s items
    have hitems : ∀ p ∈ items.map (Node.pend s), Good p.node ∧ ∀ d, p.Makes s Q d := by
      simp only [List.forall_mem_map, Node.pend_node]
      exact fun n hitem => ⟨K.items hn n hitem, ih n hitem (K.items hn n hitem)⟩
    have hblock := K.finishBlock (by rwa [hnodes]) hitems d
    rw [hnodes] at hblock
    simp only [Node.pend, Node.pendAll_eq_map]
    exact hblock
  | route mark head segments ih =>
    simp only [Node.pend, Node.pendSegments_eq_map]
    have hargs : ∀ segment ∈ segments.map (Segment.map (Node.pend s)), ∀ p ∈ segment.args,
        p.Makes s Q (d + 1) :=
      Node.forall_pend_args fun segment hs n hn' =>
        ih segment hs n hn' (K.args hn segment hs n hn') _
    refine (finishSegments_ends hargs).bind fun ts hts => ?_
    have hts := segments_of_pend (R := fun n t => s.Stays n t ∧ Q (d + 1) t) hts
    refine .pure ⟨⟨rfl, rfl, ?_, fun _ => rfl⟩,
      K.route hn (hts.imp fun _ _ h => h.imp fun _ _ h => ⟨h.1.isBlock, h.2⟩)⟩
    cases head with
    | scope => exact memberPath_congr hts
    | type => rfl
  | cast => exact (K.noCast hn).elim
  | constant mark v =>
    simp only [Node.pend]
    exact .pure ⟨⟨rfl, rfl, rfl, fun _ => rfl⟩, K.constant hn⟩
  | operator mark op =>
    simp only [Node.pend]
    exact .pure ⟨⟨rfl, rfl, rfl, fun _ => rfl⟩, K.operator hn⟩
  | unresolved mark raw =>
    simp only [Node.pend]
    exact .pure ⟨⟨rfl, rfl, rfl, fun _ => rfl⟩, K.unresolved hn⟩

/-- **What a tree is arranged to** has the property, as the outermost block. -/
theorem arrange {root t : Node} {k k' : Nat} (hroot : Good root)
    (h : (root.arrange s).run k = .ok (t, k')) : t.isBlock = root.isBlock ∧ Q 0 t := by
  obtain ⟨hstays, hq⟩ := (K.pend root hroot 0).ok h
  rw [Node.pend_node] at hstays
  exact ⟨hstays.isBlock, hq⟩

end Scope.Keeps

/-! ## Names -/

/-- The type arguments that a dotted name ends in are those of one of its segments. -/
theorem memberPath_generics {segments : List (Segment Node)} {path : List String}
    {generics : List TypeName} (h : memberPath segments = some (path, generics)) :
    generics = [] ∨ ∃ segment ∈ segments, segment.generics = generics := by
  induction segments generalizing path generics with
  | nil =>
    cases h
    exact .inl rfl
  | cons segment rest ih =>
    cases segment with
    | member mark name own =>
      obtain ⟨⟨path', later⟩, hrest, he⟩ := Option.map_eq_some_iff.mp h
      cases he
      by_cases hempty : rest.isEmpty
      · rw [if_pos hempty]
        exact .inr ⟨_, List.mem_cons_self, rfl⟩
      · rw [if_neg hempty]
        rcases ih hrest with hnil | ⟨segment, hs, he⟩
        · exact .inl hnil
        · exact .inr ⟨segment, List.mem_cons_of_mem _ hs, he⟩
    | method | indexer => cases h

/-- The names in scope that an element starts with have `N`, and its type arguments have `G`. -/
structure Element.Mentions (N : String → Prop) (G : List TypeName → Prop) (e : Element) : Prop where
  head {name : String} : e.head? = some name → N name
  typeArguments : G e.typeArguments

theorem Segment.Rel.name?_eq {α β : Type} {R : α → β → Prop} {s : Segment α} {t : Segment β}
    (h : Segment.Rel R s t) : t.name? = s.name? := by
  cases h <;> rfl

theorem Segment.Rel.generics_eq {α β : Type} {R : α → β → Prop} {s : Segment α} {t : Segment β}
    (h : Segment.Rel R s t) : t.generics = s.generics := by
  cases h <;> rfl

theorem RouteHead.name?_congr {R : Node → Node → Prop} {segments segments' : List (Segment Node)}
    (h : List.Forall₂ (Segment.Rel R) segments segments') (head : RouteHead) :
    head.name? segments' = head.name? segments := by
  cases head with
  | type => rfl
  | scope =>
    cases h with
    | nil => rfl
    | cons hsegment _ => exact hsegment.name?_eq

theorem plainItem_of_block {mark : Mark} {items : List Node} (h : PlainItem (.block mark items)) :
    ∀ n ∈ items, PlainItem n := by
  rcases h with h | h
  · cases h
  · exact (Node.built_block.mp h).2

theorem plainItem_of_route {mark : Mark} {head : RouteHead} {segments : List (Segment Node)}
    (h : PlainItem (.route mark head segments)) :
    ∀ segment ∈ segments, ∀ n ∈ segment.args, PlainItem n := by
  rcases h with h | h
  · cases h
  · exact fun segment hs n hn => .inr (Node.built_route.mp h segment hs n hn)

theorem not_plainItem_cast {mark typeMark : Mark} {target : TypeName}
    {signs : List (Mark × Operator)} {operand : Node} :
    ¬ PlainItem (.cast mark typeMark target signs operand) := by
  rintro (h | h)
  · cases h
  · simp [Node.Plain, Node.Built] at h

/-- Elements of what was read have `S`, and those that arranging makes of them have `E`. -/
structure Scope.KeepsElements (s : Scope) (S E : Element → Prop) : Prop where
  constant {mark : Mark} {v : Value} : S (.node (.constant mark v)) → E (.node (.constant mark v))
  operator {mark : Mark} {op : Operator} : S (.node (.operator mark op)) →
    E (.node (.operator mark op))
  unresolved {mark : Mark} {raw : String} : S (.node (.unresolved mark raw)) →
    E (.node (.unresolved mark raw))
  block {mark : Mark} {source items : List Node} :
    S (.node (.block mark source)) → (source ≠ [] → s.Arranged items) →
    E (.node (.block mark items))
  /-- The block of a product, or of what stands between bars. -/
  made {mark : Mark} {items : List Node} : s.Arranged items → E (.node (.block mark items))
  route {mark : Mark} {head : RouteHead} {segments segments' : List (Segment Node)}
    {R : Node → Node → Prop} : S (.node (.route mark head segments)) →
      List.Forall₂ (Segment.Rel R) segments segments' → E (.node (.route mark head segments'))
  segment {segment t : Segment Node} :
    S (.segment segment) → Segment.Rel (fun n n' => n'.isBlock = n.isBlock) segment t →
    E (.segment t)
  cast {mark typeMark : Mark} {n : Node} {target : TypeName} {signs : List (Mark × Operator)}
    {operand : Node} : (∀ e ∈ n.elements, S e) → s.castTarget? n = some target →
      E (.node (.cast mark typeMark target signs operand))
  abs {mark : Mark} {k offset : Nat} {items : List Node} :
    S (.node (.operator mark .bar)) → E (.node (absNode k offset items))
  absMember {mark : Mark} {name : String} : IsName name.toList → E (.segment (.member mark name []))
  absMethod {mark : Mark} {name : String} {args : List Node} :
    IsName name.toList → (∀ n ∈ args, n.isBlock = true) → E (.segment (.method mark name [] args))

namespace Scope.KeepsElements

variable {S E : Element → Prop} (K : s.KeepsElements S E)

include K

theorem items {items : List Node}
    (h : ∀ n ∈ items, ItemWith s (fun _ (n : Node) => ∀ e ∈ n.elements, E e) d n) :
    ∀ n ∈ items, ∀ e ∈ n.elements, E e := by
  intro n hn
  rcases h n hn with h | ⟨mark, items, rfl, harranged, h⟩
  · exact h
  · exact Node.forall_elements_block.mpr ⟨K.made harranged, h⟩

theorem keeps :
    s.Keeps (fun n => PlainItem n ∧ ∀ e ∈ n.elements, S e) fun _ n => ∀ e ∈ n.elements, E e where
  items := by
    rintro mark items ⟨hplain, hall⟩ n hn
    exact ⟨plainItem_of_block hplain n hn, (Node.forall_elements_block.mp hall).2 n hn⟩
  args := by
    rintro mark head segments ⟨hplain, hall⟩ segment hs n hn
    exact ⟨plainItem_of_route hplain segment hs n hn,
      ((Node.forall_elements_route.mp hall).2 segment hs).2 n hn⟩
  noCast h := not_plainItem_cast h.1
  constant h := List.forall_mem_singleton.mpr (K.constant (h.2 _ (Node.elements_self _)))
  operator h := List.forall_mem_singleton.mpr (K.operator (h.2 _ (Node.elements_self _)))
  unresolved h := List.forall_mem_singleton.mpr (K.unresolved (h.2 _ (Node.elements_self _)))
  block h _ harranged hitems :=
    Node.forall_elements_block.mpr
      ⟨K.block (h.2 _ (Node.elements_self _)) harranged, K.items hitems⟩
  route := by
    rintro d mark head segments segments' ⟨-, hall⟩ hsegments
    obtain ⟨hroute, hargs⟩ := Node.forall_elements_route.mp hall
    refine Node.forall_elements_route.mpr ⟨K.route hroute hsegments, fun t ht => ?_⟩
    obtain ⟨segment, hs, hrel⟩ := exists_of_forall₂ hsegments ht
    refine ⟨K.segment (hargs segment hs).1 (hrel.imp fun _ _ h => h.1), fun n hn => ?_⟩
    obtain ⟨_, _, -, hq⟩ := exists_of_forall₂ hrel.args hn
    exact hq
  cast := by
    rintro d mark typeMark n target signs operand - ⟨-, hall⟩ htarget hoperand
    exact Node.forall_elements_cast.mpr ⟨K.cast hall htarget, hoperand⟩
  abs := by
    rintro d k offset mark items ⟨-, hbar⟩ - harranged hitems
    refine Node.forall_elements_route.mpr ⟨K.abs (hbar _ (Node.elements_self _)), ?_⟩
    have hblock : ∀ e ∈ (Node.block ⟨k, offset⟩ items).elements, E e :=
      Node.forall_elements_block.mpr ⟨K.made harranged, K.items hitems⟩
    rw [List.forall_mem_cons, List.forall_mem_cons, List.forall_mem_singleton]
    refine ⟨⟨K.absMember ?_, nofun⟩, ⟨K.absMember ?_, nofun⟩,
      K.absMethod ?_ (List.forall_mem_singleton.mpr rfl), List.forall_mem_singleton.mpr hblock⟩
    · exact ⟨⟨'S', _, rfl, rfl⟩, List.all_eq_true.mp rfl⟩
    · exact ⟨⟨'M', _, rfl, rfl⟩, List.all_eq_true.mp rfl⟩
    · exact ⟨⟨'A', _, rfl, rfl⟩, List.all_eq_true.mp rfl⟩

end Scope.KeepsElements

/-- Arranging makes neither names that are looked up nor type arguments. -/
theorem Scope.keeps_mentions (s : Scope) (N : String → Prop) (G : List TypeName → Prop)
    (hG : G []) :
    s.Keeps (fun n => PlainItem n ∧ ∀ e ∈ n.elements, e.Mentions N G)
      (fun _ n => ∀ e ∈ n.elements, e.Mentions N G) := by
  refine KeepsElements.keeps ⟨id, id, id, fun _ _ => ⟨nofun, hG⟩, fun _ => ⟨nofun, hG⟩, ?_, ?_, ?_,
    fun _ => ⟨nofun, hG⟩, fun _ => ⟨nofun, hG⟩, fun _ _ => ⟨nofun, hG⟩⟩
  · intro mark head segments segments' R h hsegments
    exact ⟨fun {name} hname => h.head ((RouteHead.name?_congr hsegments head).symm.trans hname), hG⟩
  · intro segment t h hrel
    have hgenerics : G segment.generics := h.typeArguments
    rw [← hrel.generics_eq] at hgenerics
    exact ⟨nofun, hgenerics⟩
  · intro mark typeMark n target signs operand hall htarget
    refine ⟨nofun, ?_⟩
    show G target.args
    obtain ⟨_, _, segments, path, rfl, hpath⟩ := Scope.castTarget?_eq_some htarget
    have hroute := (Node.forall_elements_block.mp hall).2 _ (List.mem_singleton.mpr rfl)
    rcases memberPath_generics hpath with hnil | ⟨segment, hs, he⟩
    · rwa [hnil]
    · have hgenerics : G segment.generics :=
        ((Node.forall_elements_route.mp hroute).2 segment hs).1.typeArguments
      rwa [he] at hgenerics

/-- Arranging makes no constants. -/
theorem Scope.keeps_literals (s : Scope) (L : Value → Prop) :
    s.Keeps (fun n => PlainItem n ∧ n.LiteralsIn L) fun _ n => n.LiteralsIn L :=
  KeepsElements.keeps ⟨id, id, id, fun _ _ => nofun, fun _ => nofun, fun _ _ => nofun,
    fun _ _ => nofun, fun _ _ => nofun, fun _ => nofun, fun _ => nofun, fun _ _ => nofun⟩

end Formula
