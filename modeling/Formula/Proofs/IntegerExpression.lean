import Formula.Proofs.AbsoluteValue
import Formula.Proofs.IntegerConversion
import Formula.Proofs.Tokens

/-!
# Integer expressions

`IntExpr` is the syntax of expressions over the integers, with their exact value, and `SumText` says
how they are written: `*` binds before `+` and `-`, all three join from left to right, and a sign
stands at the start of the text or of parentheses and belongs to the whole first product.

If all leaves have one integer kind, then the whole expression is computed in that kind, and every
step keeps the number modulo `2 ^ width` (`Bound.Computes`). So the result is the exact value up to
a multiple of `2 ^ width`, whatever happens in between (`Binder.integers_wrap`):

* reading gives the products of the text, each a chain of its operands (`SumText.reads`);
* a block of them is arranged and bound as a chain is meant to be bound (`Chain.IsSum.denotes`).
-/

namespace Formula

/-! ## Syntax and value -/

/-- Expressions over the integers. -/
inductive IntExpr where
  | name (text : String)
  | numeral (n : ℕ)
  | neg (e : IntExpr)
  | add (e f : IntExpr)
  | sub (e f : IntExpr)
  | mul (e f : IntExpr)

namespace IntExpr

/-- The exact value, given the numbers that the names stand for. -/
def value (number : String → ℤ) : IntExpr → ℤ
  | .name text => number text
  | .numeral n => n
  | .neg e => -e.value number
  | .add e f => e.value number + f.value number
  | .sub e f => e.value number - f.value number
  | .mul e f => e.value number * f.value number

/-- The leaves have the type `k`: the names are parameters of it, and a numeral is one if the kind
is that of plain numerals and holds it. A minus needs a signed kind. -/
def OfKind (context : Context) (k : IntKind) : IntExpr → Prop
  | .name text => ∃ i p, context.parameter? text = some (i, p) ∧ p.ty = .int k
  | .numeral n => k = .i32 ∧ IntKind.i32.holds n = true
  | .neg e => k.signed = true ∧ e.OfKind context k
  | .add e f | .sub e f | .mul e f => e.OfKind context k ∧ f.OfKind context k

/-- Operands joined by one of the three operators. -/
inductive Joined : ArithOp → IntExpr → IntExpr → IntExpr → Prop
  | add (e f : IntExpr) : Joined .add e f (.add e f)
  | sub (e f : IntExpr) : Joined .sub e f (.sub e f)
  | mul (e f : IntExpr) : Joined .mul e f (.mul e f)

/-- An operand with a minus in front of it, if there is one. -/
def signed (negative : Bool) (e : IntExpr) : IntExpr := if negative then .neg e else e

end IntExpr

mutual

/-- The text of an operand: a name, a numeral, or an expression in parentheses, perhaps after
blanks. -/
inductive OperandText : List Char → IntExpr → Prop
  | name {blanks cs : List Char} : Blank blanks → IsName cs →
    OperandText (blanks ++ cs) (.name (String.ofList cs))
  | numeral {blanks cs : List Char} {n : ℕ} : Blank blanks → IsNumeral cs n →
    OperandText (blanks ++ cs) (.numeral n)
  | parentheses {blanks cs blanks' : List Char} {e : IntExpr} : Blank blanks → SumText cs e →
    Blank blanks' → OperandText (blanks ++ '(' :: (cs ++ (blanks' ++ [')']))) e

/-- The text of a product. -/
inductive ProductText : List Char → IntExpr → Prop
  | operand {cs : List Char} {e : IntExpr} : OperandText cs e → ProductText cs e
  | mul {cs blanks ds : List Char} {e f : IntExpr} : ProductText cs e → Blank blanks →
    OperandText ds f → ProductText (cs ++ (blanks ++ '*' :: ds)) (.mul e f)

/-- The text of an expression. -/
inductive SumText : List Char → IntExpr → Prop
  | product {cs : List Char} {e : IntExpr} : ProductText cs e → SumText cs e
  | plus {blanks cs : List Char} {e : IntExpr} : Blank blanks → ProductText cs e →
    SumText (blanks ++ '+' :: cs) e
  | minus {blanks cs : List Char} {e : IntExpr} : Blank blanks → ProductText cs e →
    SumText (blanks ++ '-' :: cs) (.neg e)
  | add {cs blanks ds : List Char} {e f : IntExpr} : SumText cs e → Blank blanks →
    ProductText ds f → SumText (cs ++ (blanks ++ '+' :: ds)) (.add e f)
  | sub {cs blanks ds : List Char} {e f : IntExpr} : SumText cs e → Blank blanks →
    ProductText ds f → SumText (cs ++ (blanks ++ '-' :: ds)) (.sub e f)

end

/-- The expression is written in a text, perhaps with blanks behind it. -/
def IntExpr.WrittenIn (source : String) (e : IntExpr) : Prop :=
  ∃ cs blanks, SumText cs e ∧ Blank blanks ∧ source.toList = cs ++ blanks

/-- The number that the parameter of a name has among values. -/
def Context.number (context : Context) (values : List Value) (name : String) : ℤ :=
  match (context.parameter? name).bind fun p => values[p.1]? with
  | some (.int k x) => k.toInt x
  | _ => 0

/-- There is a value for each parameter, and parameters of the kind `k` have values of that kind. -/
structure Context.Supplied (context : Context) (k : IntKind) (values : List Value) : Prop where
  enough : context.parameters.length ≤ values.length
  kinds : ∀ (i : ℕ) p v, context.parameters[i]? = some p → p.ty = .int k → values[i]? = some v →
    v.kind? = some (.int k)

/-! ## Trees -/

/-- The tree has the kind `k` and gives the value of an expression, wrapped around. -/
structure Bound.Computes (context : Context) (k : IntKind) (b : Bound) (e : IntExpr) : Prop where
  ty_eq : b.ty = .int k
  eval_eq : ∀ frame : Frame, context.Supplied k frame.values →
    b.eval frame = .ok (.ofInt k (e.value (context.number frame.values)))

namespace Bound.Computes

variable {context : Context} {k : IntKind} {b c : Bound} {e f g : IntExpr}

theorem toKind (h : b.Computes context k e) : toKind (.int k) b = b := if_pos h.ty_eq

/-- Wrapping twice is wrapping once, whatever is done with the numbers in between. -/
theorem arith_ofInt {op : ArithOp} (h : IntExpr.Joined op e f g) (k : IntKind)
    (number : String → ℤ) :
    Value.arith op (.ofInt k (e.value number)) (.ofInt k (f.value number)) =
      .ok (.ofInt k (g.value number)) := by
  have he := k.toInt_wrap_modEq (e.value number)
  have hf := k.toInt_wrap_modEq (f.value number)
  cases h with
  | add =>
    simp only [Value.arith, Value.ofInt, if_true, Value.intArith, IntExpr.value]
    rw [IntKind.wrap_eq_iff.mpr (he.add hf)]
  | sub =>
    simp only [Value.arith, Value.ofInt, if_true, Value.intArith, IntExpr.value]
    rw [IntKind.wrap_eq_iff.mpr (he.sub hf)]
  | mul =>
    simp only [Value.arith, Value.ofInt, if_true, Value.intArith, IntExpr.value]
    rw [IntKind.wrap_eq_iff.mpr (he.mul hf)]

theorem binary {op : ArithOp} (hop : IntExpr.Joined op e f g) (hb : b.Computes context k e)
    (hc : c.Computes context k f) :
    ∃ d, binaryBound op b c = .ok d ∧ d.Computes context k g := by
  refine ⟨.binary (.int k) op b c, ?_, rfl, fun frame hframe => ?_⟩
  · have hkind : b.ty.promote? c.ty = some (.int k) := by
      rw [hb.ty_eq, hc.ty_eq]
      exact congrArg some (if_pos (Nat.le_refl _))
    cases hop <;> simp only [binaryBound, hkind, hb.toKind, hc.toKind]
  · rw [Bound.eval, hb.eval_eq frame hframe, hc.eval_eq frame hframe]
    exact arith_ofInt hop k _

theorem negate (hk : k.signed = true) (hb : b.Computes context k e) :
    ∃ c, negateBound b = .ok c ∧ c.Computes context k (.neg e) := by
  refine ⟨.negate (.int k) b, ?_, rfl, fun frame hframe => ?_⟩
  · have hkind : negationKind? (.int k) = some (.int k) := by
      cases k <;> first | rfl | cases hk
    simp only [negateBound, hb.ty_eq, Ty.kind?, Option.bind_some, hkind, hb.toKind]
  · rw [Bound.eval, hb.eval_eq frame hframe]
    show Value.negate (.ofInt k _) = _
    rw [Value.ofInt, Value.negate, if_pos hk, IntExpr.value, Value.ofInt, Value.ofInt,
      IntKind.wrap_eq_iff.mpr (k.toInt_wrap_modEq _).neg]

end Bound.Computes

/-! ## Chains -/

namespace Chain

variable {α β : Type} {P : α → IntExpr → Prop} {Q : β → IntExpr → Prop}

/-- What follows on the expression `acc` makes `e` of it, operator by operator; `P` says what the
operands are. -/
inductive Continues (P : α → IntExpr → Prop) :
    IntExpr → List ((Mark × ArithOp) × α) → IntExpr → Prop
  | nil (e : IntExpr) : Continues P e [] e
  | cons {acc e f g : IntExpr} {op : Mark × ArithOp} {x : α} {rest : List ((Mark × ArithOp) × α)} :
    P x f → IntExpr.Joined op.2 acc f g → Continues P g rest e → Continues P acc ((op, x) :: rest) e

/-- The operands, the first one with its sign, make an expression when they are joined from left to
right. -/
def Makes (P : α → IntExpr → Prop) (negative : Bool) (c : Chain α) (e : IntExpr) : Prop :=
  ∃ first, P c.first first ∧ Continues P (first.signed negative) c.rest e

theorem Continues.snoc {acc e f g : IntExpr} {op : Mark × ArithOp} {x : α}
    {rest : List ((Mark × ArithOp) × α)} (h : Continues P acc rest e) (hx : P x f)
    (hop : IntExpr.Joined op.2 e f g) : Continues P acc (rest ++ [(op, x)]) g := by
  induction h with
  | nil e => exact .cons hx hop (.nil g)
  | cons hy hop' _ ih => exact .cons hy hop' (ih hop)

theorem Continues.rel {R : α → β → Prop} (hR : ∀ x y e, R x y → P x e → Q y e) {acc e : IntExpr}
    {rest : List ((Mark × ArithOp) × α)} {rest' : List ((Mark × ArithOp) × β)}
    (h : Continues P acc rest e)
    (hrest : List.Forall₂ (fun x y => x.1 = y.1 ∧ R x.2 y.2) rest rest') :
    Continues Q acc rest' e := by
  induction h generalizing rest' with
  | nil e =>
    cases List.forall₂_nil_left_iff.mp hrest
    exact .nil e
  | cons hx hop _ ih =>
    obtain ⟨⟨op', y⟩, rest', ⟨rfl, hy⟩, hmore, rfl⟩ := List.forall₂_cons_left_iff.mp hrest
    exact .cons (hR _ _ _ hy hx) hop (ih hmore)

theorem Makes.rel {R : α → β → Prop} (hR : ∀ x y e, R x y → P x e → Q y e)
    {negative : Bool} {c : Chain α} {d : Chain β} {e : IntExpr} (h : c.Makes P negative e)
    (hrel : c.Rel R d) : d.Makes Q negative e := by
  obtain ⟨first, hfirst, hrest⟩ := h
  exact ⟨first, hR _ _ _ hrel.first hfirst, hrest.rel hR hrel.rest⟩

theorem Continues.operands {acc e : IntExpr} {rest : List ((Mark × ArithOp) × α)}
    (h : Continues P acc rest e) : ∀ x ∈ rest, ∃ f, P x.2 f := by
  induction h with
  | nil e => simp
  | cons hx _ _ ih => exact List.forall_mem_cons.mpr ⟨⟨_, hx⟩, ih⟩

theorem Makes.operands {negative : Bool} {c : Chain α} {e : IntExpr} (h : c.Makes P negative e) :
    ∀ x ∈ c.operands, ∃ f, P x f := by
  obtain ⟨first, hfirst, hrest⟩ := h
  refine List.forall_mem_cons.mpr ⟨⟨first, hfirst⟩, List.forall_mem_map.mpr hrest.operands⟩

variable {context : Context} {k : IntKind} {bind : α → Except BuildError Bound}

/-- What is bound to a tree that computes the expression, unless a limit is exceeded. -/
def BindsTo (context : Context) (k : IntKind) (bind : α → Except BuildError Bound)
    (x : α) (e : IntExpr) :
    Prop :=
  ∃ b, UpToLimits (bind x) (.ok b) ∧ b.Computes context k e

theorem Continues.fold {acc e : IntExpr} {rest : List ((Mark × ArithOp) × α)}
    (h : Continues (BindsTo context k bind) acc rest e) {b : Bound}
    (hb : b.Computes context k acc) :
    ∃ c, UpToLimits (rest.foldlM (fun acc x => do binaryBound x.1.2 acc (← bind x.2)) b) (.ok c) ∧
      c.Computes context k e := by
  induction h generalizing b with
  | nil e => exact ⟨b, .refl _, hb⟩
  | @cons acc e f g op x rest hx hop _ ih =>
    obtain ⟨c, hbind, hc⟩ := hx
    obtain ⟨d, hd, hcomputes⟩ := hb.binary hop hc
    obtain ⟨t, ht, hresult⟩ := ih hcomputes
    refine ⟨t, ?_, hresult⟩
    rw [List.foldlM_cons]
    have hstep : UpToLimits (do binaryBound op.2 b (← bind x)) (.ok d) := by
      rw [← hd]
      exact hbind.bind fun a => .refl _
    exact (hstep.bind fun a => .refl _).trans ht

theorem Makes.fold {negative : Bool} (hsign : negative = true → k.signed = true)
    {c : Chain α} {e : IntExpr} (h : c.Makes (BindsTo context k bind) negative e) :
    BindsTo context k (fold negative bind) c e := by
  obtain ⟨first, ⟨b, hbind, hb⟩, hrest⟩ := h
  obtain ⟨b', hnegate, hb'⟩ : ∃ b', negateIf negative b = .ok b' ∧
      b'.Computes context k (first.signed negative) := by
    cases negative with
    | false => exact ⟨b, rfl, hb⟩
    | true => exact hb.negate (hsign rfl)
  obtain ⟨t, ht, hresult⟩ := hrest.fold hb'
  refine ⟨t, UpToLimits.trans (hbind.bind fun a => .refl _) ?_, hresult⟩
  show UpToLimits (negateIf negative b >>= _) _
  rw [hnegate]
  exact ht

end Chain

/-! ## Nodes -/

/-- A chain in parentheses is no type if its first operand alone would be none. -/
theorem Scope.castTarget?_chain {s : Scope} {c : Chain Node}
    (h : ∀ mark, s.castTarget? (.block mark [c.first]) = none) (sign : Option (Mark × Bool))
    (mark : Mark) :
    s.castTarget? (.block mark (c.signedNodes sign)) = none := by
  obtain ⟨first, rest⟩ := c
  cases sign with
  | none =>
    cases rest with
    | nil => exact h mark
    | cons x rest => simp [Chain.signedNodes, Chain.nodes, Chain.items, castTarget?]
  | some sign => rfl

namespace Node

/-- The node is an operand and no type of a cast, and whatever it is arranged to is bound to a tree
that computes the expression. -/
structure Denotes (s : Scope) (env : BindEnv) (k : IntKind) (n : Node) (e : IntExpr) : Prop where
  isOperator : n.isOperator = false
  noCast : s.castTarget? n = none
  noType : ∀ mark, s.castTarget? (.block mark [n]) = none
  finish : ∀ {depth count t count'}, ((n.pend s).finish depth).run count = .ok (t, count') →
    Chain.BindsTo env.context k (Node.meaning env) t e

variable {s : Scope} {env : BindEnv} {k : IntKind}

theorem denotes_numeral {n : ℕ} {e : IntExpr} (he : e = .numeral n) (h : e.OfKind env.context k)
    (mark : Mark) :
    (Node.constant mark (.ofInt .i32 n)).Denotes s env k e := by
  subst he
  obtain ⟨rfl, -⟩ := h
  refine ⟨rfl, rfl, fun mark => rfl, fun {depth count t count'} hfinish => ?_⟩
  simp only [pend] at hfinish
  cases Arranging.pure_ok hfinish
  exact ⟨_, .bounded env _, rfl, fun frame _ => rfl⟩

theorem denotes_name {name : String} {e : IntExpr} (he : e = .name name)
    (hs : s.context = env.context) (h : e.OfKind env.context k) (mark mark' : Mark) :
    (Node.route mark .scope [.member mark' name []]).Denotes s env k e := by
  subst he
  obtain ⟨i, p, hp, hty⟩ := h
  refine ⟨rfl, rfl, fun mark => ?_, fun {depth count t count'} hfinish => ?_⟩
  · simp [Scope.castTarget?, Scope.namedType?, memberPath, hs, hp]
  · cases hfinish
    refine ⟨.param p.ty i, ?_, hty, fun frame hframe => ?_⟩
    · have hroute : env.bindRoute .scope [Segment.member mark' name []] =
          (.ok (.param p.ty i) : Except BuildError Bound) := by
        simp only [BindEnv.bindRoute, BindEnv.bindName, hp]
        rfl
      simp only [meaning, task, kept, BindMonad.keep, taskSegments, hroute]
      exact .bounded env _
    · have hi := Context.parameter?_eq_some hp
      have hlt : i < frame.values.length :=
        Nat.lt_of_lt_of_le (List.getElem?_eq_some_iff.mp hi).1 hframe.enough
      have hvalue : frame.values[i]? = some frame.values[i] := List.getElem?_eq_getElem hlt
      obtain ⟨x, hx⟩ := Value.eq_int_of_kind? (hframe.kinds i p _ hi hty hvalue)
      rw [hx] at hvalue
      simp only [Bound.eval, hvalue, IntExpr.value, Context.number, hp, Option.bind_some,
        Value.ofInt_toInt]

end Node

namespace Chain

/-- The operands of a product denote expressions, and the product makes `e` of them. -/
structure IsProduct (s : Scope) (env : BindEnv) (k : IntKind) (c : Chain Node) (e : IntExpr) :
    Prop where
  makes : c.Makes (Node.Denotes s env k) false e
  operators : ∀ x ∈ c.rest, (Operator.arith x.1.2).isMultiplicative = true

/-- Products, the first one with its sign, that make `e`. -/
structure IsSum (s : Scope) (env : BindEnv) (k : IntKind) (sign : Option (Mark × Bool))
    (d : Chain (Chain Node)) (e : IntExpr) : Prop where
  makes : d.Makes (IsProduct s env k) (isNegative sign) e
  operators : ∀ x ∈ d.rest, (Operator.arith x.1.2).isMultiplicative = false
  signed : isNegative sign = true → k.signed = true

variable {s : Scope} {env : BindEnv} {k : IntKind} {sign : Option (Mark × Bool)}
  {d : Chain (Chain Node)} {e : IntExpr}

theorem IsSum.terms_join (h : d.IsSum s env k sign e) : d.join.terms = d := by
  refine Chain.terms_join (fun term hterm => ?_) h.operators
  obtain ⟨f, hf⟩ := h.makes.operands term hterm
  exact hf.operators

theorem IsSum.operands (h : d.IsSum s env k sign e) :
    ∀ n ∈ d.join.operands, ∃ f, n.Denotes s env k f := by
  intro n hn
  rw [← operands_terms, h.terms_join] at hn
  obtain ⟨term, hterm, hn⟩ := List.mem_flatMap.mp hn
  obtain ⟨f, hf⟩ := h.makes.operands term hterm
  exact hf.makes.operands n hn

/-- A block of products is bound to a tree that computes their sum. -/
theorem IsSum.denotes (hplain : env.simplify = false) (h : d.IsSum s env k sign e) (mark : Mark) :
    (Node.block mark (d.join.signedNodes sign)).Denotes s env k e := by
  have hoperands : ∀ n ∈ d.join.operands, n.isOperator = false ∧ s.castTarget? n = none := by
    intro n hn
    obtain ⟨f, hf⟩ := h.operands n hn
    exact ⟨hf.isOperator, hf.noCast⟩
  refine ⟨rfl, ?_, fun mark => rfl, fun {depth count t count'} hfinish => ?_⟩
  · obtain ⟨f, hf⟩ := h.operands _ List.mem_cons_self
    exact Scope.castTarget?_chain hf.noType sign mark
  · simp only [Node.pend, Node.pendAll_eq_map] at hfinish
    obtain ⟨c', ns, hrel, hgrouped, rfl⟩ :=
      (finishBlock_chain s depth mark sign hoperands).ok hfinish
    have hmeaning := hgrouped.meaning hplain (hrel.isOperator fun n hn => (hoperands n hn).1) mark
    have hterms := hrel.terms
    rw [h.terms_join] at hterms
    have hmakes : c'.terms.Makes (BindsTo env.context k (fold false (Node.meaning env)))
        (isNegative sign) e := by
      refine h.makes.rel (fun c c' e hc hproduct => ?_) hterms
      have hterm : c'.Makes (BindsTo env.context k (Node.meaning env)) false e := by
        refine hproduct.makes.rel (fun n t e hn hdenotes => ?_) hc
        obtain ⟨count, count', hrun⟩ := hn
        exact hdenotes.finish hrun
      exact hterm.fold (by simp)
    obtain ⟨b, hb, hcomputes⟩ := hmakes.fold h.signed
    exact ⟨b, hmeaning.trans hb, hcomputes⟩

theorem isProduct_single {n : Node} (h : n.Denotes s env k e) :
    (Chain.mk n []).IsProduct s env k e :=
  ⟨⟨e, h, .nil e⟩, by simp⟩

theorem IsProduct.mul {c : Chain Node} {f : IntExpr} {n : Node} (h : c.IsProduct s env k e)
    (hn : n.Denotes s env k f) (mark : Mark) :
    (c.snoc (mark, .mul) n).IsProduct s env k (.mul e f) := by
  obtain ⟨first, hfirst, hrest⟩ := h.makes
  exact ⟨⟨first, hfirst, hrest.snoc hn (.mul e f)⟩, forall_rest_snoc.mpr ⟨h.operators, rfl⟩⟩

theorem isSum_single {c : Chain Node} (h : c.IsProduct s env k e)
    (hsign : isNegative sign = true → k.signed = true) :
    (Chain.mk c []).IsSum s env k sign (e.signed (isNegative sign)) :=
  ⟨⟨e, h, .nil _⟩, by simp, hsign⟩

theorem IsSum.snoc {c : Chain Node} {f g : IntExpr} {op : ArithOp} (h : d.IsSum s env k sign e)
    (hc : c.IsProduct s env k f) (hop : IntExpr.Joined op e f g)
    (hsum : (Operator.arith op).isMultiplicative = false) (mark : Mark) :
    (d.snoc (mark, op) c).IsSum s env k sign g := by
  obtain ⟨first, hfirst, hrest⟩ := h.makes
  exact ⟨⟨first, hfirst, hrest.snoc hc hop⟩, forall_rest_snoc.mpr ⟨h.operators, hsum⟩, h.signed⟩

theorem nodes_snoc (c : Chain Node) (op : Mark × ArithOp) (n : Node) :
    (c.snoc op n).nodes = c.nodes ++ [operatorNode op, n] := items_snoc ..

theorem signedNodes_join_snoc (sign : Option (Mark × Bool)) (d : Chain (Chain Node))
    (op : Mark × ArithOp) (c : Chain Node) : (d.snoc op c).join.signedNodes sign =
      d.join.signedNodes sign ++ operatorNode op :: c.nodes := by
  simp [signedNodes, nodes, items_join, items_snoc]

end Chain

/-! ## Reading -/

section

variable (s : Scope) (env : BindEnv) (k : IntKind)

/-- The item of an operand that denotes `e`. -/
def OperandItems (e : IntExpr) (ns : List Node) : Prop := ∃ n, ns = [n] ∧ n.Denotes s env k e

/-- The items of a product that makes `e`. -/
def ProductItems (e : IntExpr) (ns : List Node) : Prop :=
  ∃ c : Chain Node, ns = c.nodes ∧ c.IsProduct s env k e

/-- The items of a sum that makes `e`. -/
def SumItems (e : IntExpr) (ns : List Node) : Prop :=
  ∃ (sign : Option (Mark × Bool)) (d : Chain (Chain Node)),
    ns = d.join.signedNodes sign ∧ d.IsSum s env k sign e

end

section

variable {s : Scope} {env : BindEnv} {k : IntKind} {cs ds blanks : List Char} {e f g : IntExpr}

theorem Reads.mul (h : Reads cs (ProductItems s env k e)) (hblanks : Blank blanks)
    (h' : Reads ds (OperandItems s env k f)) :
    Reads (cs ++ (blanks ++ '*' :: ds)) (ProductItems s env k (.mul e f)) := by
  refine (h.append (h'.operator hblanks rfl) fun more _ =>
    delimited_operator hblanks (by decide) ds more).mono ?_
  rintro _ ⟨_, _, rfl, ⟨c, rfl, hc⟩, mark, _, rfl, n, rfl, hn⟩
  exact ⟨_, (c.nodes_snoc (mark, .mul) n).symm, hc.mul hn mark⟩

/-- A product on its own. -/
theorem Reads.product (h : Reads cs (ProductItems s env k e)) : Reads cs (SumItems s env k e) := by
  refine h.mono ?_
  rintro _ ⟨c, rfl, hc⟩
  exact ⟨none, ⟨c, []⟩, by simp [Chain.signedNodes, Chain.join],
    Chain.isSum_single hc (by simp [Chain.isNegative])⟩

/-- A product after a sign. -/
theorem Reads.sign {x : Char} (negative : Bool)
    (hx : Operator.ofChar? x = some (.arith (if negative then .sub else .add)))
    (hsign : negative = true → k.signed = true) (h : Reads cs (ProductItems s env k e))
    (hblanks : Blank blanks) :
    Reads (blanks ++ x :: cs) (SumItems s env k (e.signed negative)) := by
  refine (h.operator hblanks hx).mono ?_
  rintro _ ⟨mark, _, rfl, c, rfl, hc⟩
  exact ⟨some (mark, negative), ⟨c, []⟩, by simp [Chain.signedNodes, Chain.join, Chain.signNode,
    Chain.operatorNode], Chain.isSum_single hc hsign⟩

/-- A further product behind a sum. -/
theorem Reads.join {x : Char} {op : ArithOp} (hx : Operator.ofChar? x = some (.arith op))
    (hdelimiter : x ∈ delimiters) (hop : IntExpr.Joined op e f g)
    (hsum : (Operator.arith op).isMultiplicative = false) (h : Reads cs (SumItems s env k e))
    (hblanks : Blank blanks) (h' : Reads ds (ProductItems s env k f)) :
    Reads (cs ++ (blanks ++ x :: ds)) (SumItems s env k g) := by
  refine (h.append (h'.operator hblanks hx) fun more _ =>
    delimited_operator hblanks hdelimiter ds more).mono ?_
  rintro _ ⟨_, _, rfl, ⟨sign, d, rfl, hd⟩, mark, _, rfl, c, rfl, hc⟩
  exact ⟨sign, _, (Chain.signedNodes_join_snoc sign d (mark, op) c).symm, hd.snoc hc hop hsum mark⟩

end

-- One case for each rule of the grammar; the items of a rule are built from those of its parts.
mutual

theorem OperandText.reads {s : Scope} {env : BindEnv} (hs : s.context = env.context)
    (hplain : env.simplify = false) {k : IntKind} {cs : List Char} {e : IntExpr} :
    OperandText cs e → e.OfKind env.context k → Reads cs (OperandItems s env k e)
  | .name hblanks hname, hkind => by
    refine Reads.element fun limit room more offset count found hmore hread => ?_
    rw [List.append_assoc, readElement_blanks _ hblanks,
      readElement_name _ _ _ _ hname hmore] at hread
    cases hread
    exact ⟨_, _, _, rfl, Node.denotes_name rfl hs hkind _ _⟩
  | .numeral hblanks hnumeral, hkind => by
    refine Reads.element fun limit room more offset count found hmore hread => ?_
    rw [List.append_assoc, readElement_blanks _ hblanks,
      readElement_numeral _ hnumeral hmore hkind.2] at hread
    cases hread
    exact ⟨_, _, _, rfl, Node.denotes_numeral rfl hkind _⟩
  | .parentheses hblanks hsum hblanks', hkind => by
    refine ((hsum.reads hs hplain hkind).parentheses hblanks hblanks').mono ?_
    rintro _ ⟨_, rfl, mark, _, rfl, sign, d, rfl, hd⟩
    exact ⟨_, rfl, hd.denotes hplain mark⟩

theorem ProductText.reads {s : Scope} {env : BindEnv} (hs : s.context = env.context)
    (hplain : env.simplify = false) {k : IntKind} {cs : List Char} {e : IntExpr} :
    ProductText cs e → e.OfKind env.context k → Reads cs (ProductItems s env k e)
  | .operand h, hkind => by
    refine (h.reads hs hplain hkind).mono ?_
    rintro _ ⟨n, rfl, hn⟩
    exact ⟨⟨n, []⟩, rfl, Chain.isProduct_single hn⟩
  | .mul h hblanks h', hkind => (h.reads hs hplain hkind.1).mul hblanks (h'.reads hs hplain hkind.2)

theorem SumText.reads {s : Scope} {env : BindEnv} (hs : s.context = env.context)
    (hplain : env.simplify = false) {k : IntKind} {cs : List Char} {e : IntExpr} :
    SumText cs e → e.OfKind env.context k → Reads cs (SumItems s env k e)
  | .product h, hkind => (h.reads hs hplain hkind).product
  | .plus hblanks h, hkind => (h.reads hs hplain hkind).sign false rfl (by simp) hblanks
  | .minus hblanks h, hkind => (h.reads hs hplain hkind.2).sign true rfl (fun _ => hkind.1) hblanks
  | .add h hblanks h', hkind =>
    (h.reads hs hplain hkind.1).join rfl (by decide) (.add _ _) rfl hblanks
      (h'.reads hs hplain hkind.2)
  | .sub h hblanks h', hkind =>
    (h.reads hs hplain hkind.1).join rfl (by decide) (.sub _ _) rfl hblanks
      (h'.reads hs hplain hkind.2)

end

/-- A text in which an expression is written is read as a block that denotes it. -/
theorem IntExpr.WrittenIn.ofSource {s : Scope} {env : BindEnv} (hs : s.context = env.context)
    (hplain : env.simplify = false) {k : IntKind} {source : String} {e : IntExpr}
    (h : e.WrittenIn source) (hkind : e.OfKind env.context k) {limit nodes : Nat} {root : Node}
    (hread : Node.ofSource limit source = .ok (root, nodes)) : root.Denotes s env k e := by
  obtain ⟨cs, blanks, hcs, hblanks, hsource⟩ := h
  obtain ⟨items, r, hitems, -, -, rfl, -⟩ := Node.ofSource_ok_iff.mp hread
  rw [readElements_eq, Cursor.start, hsource] at hitems
  have hmore : Delimited blanks := by
    simpa using Delimited.blank hblanks .nil
  obtain ⟨front, rest, offset, count, rfl, ⟨sign, d, rfl, hd⟩, hrest⟩ :=
    hcs.reads hs hplain hkind _ _ _ _ _ _ _ hmore hitems
  have hnone : readElement (levelAt limit limit) ⟨⟨blanks, offset⟩, count⟩ = .ok none := by
    rw [← List.append_nil blanks, readElement_blanks _ hblanks]
    rfl
  rw [many_of_none hnone] at hrest
  cases hrest
  rw [List.append_nil]
  exact hd.denotes hplain _

namespace Binder

/-- **Integer expressions compute modulo `2 ^ width`.** Let all leaves of an expression have the
integer kind `k`, and let a text in which it is written be compiled without simplification. Then the
result has the kind `k`, and for all values of the parameters it is congruent to the exact value
modulo `2 ^ width`. So it is the exact value whenever the kind holds that, also if results in
between overflow. -/
theorem integers_wrap {b : Binder} (hplain : b.simplify = false) {context : Context} {k : IntKind}
    {source : String} {e : IntExpr} (hsource : e.WrittenIn source) (hkind : e.OfKind context k)
    {c : Compiled} (hc : b.compile context source = .ok c) :
    c.root.ty = .int k ∧ ∀ receiver values, context.Supplied k values →
      ∃ x, c.eval receiver values = .ok (.int k x) ∧
        k.toInt x ≡ e.value (context.number values) [ZMOD 2 ^ k.width] ∧
        (k.holds (e.value (context.number values)) = true →
          k.toInt x = e.value (context.number values)) := by
  obtain ⟨p, hp, -, hmeaning, hparameters, -⟩ := firstBinding_ok hc
  obtain ⟨-, root, nodes, hread, harrange, -⟩ := prepare_ok hp
  have hdenotes : root.Denotes (b.scope context) (b.env context) k e :=
    hsource.ofSource rfl hplain hkind hread
  obtain ⟨t, hlimits, hcomputes⟩ := hdenotes.finish harrange
  rw [hmeaning] at hlimits
  rcases hlimits with ⟨limit, n, hlimit⟩ | ht
  · cases hlimit
  cases ht
  refine ⟨hcomputes.ty_eq, fun receiver values hvalues => ?_⟩
  refine ⟨k.wrap (e.value (context.number values)), ?_, k.toInt_wrap_modEq _, fun hholds => ?_⟩
  · rw [Compiled.eval, hparameters, if_neg (Nat.not_lt.mpr hvalues.enough)]
    exact hcomputes.eval_eq ⟨receiver, values⟩ hvalues
  · exact IntKind.toInt_wrap hholds

/-- `-(x * x) + (x * x + 31)` -/
def squaresApart : IntExpr :=
  .add (.neg (.mul (.name "x") (.name "x"))) (.add (.mul (.name "x") (.name "x")) (.numeral 31))

/-- The squares are beyond the kind, and their difference is not. -/
theorem integers_wrap_squares :
    let b : Binder := ⟨(Registry.standard []).host, .standard, false⟩
    let context : Context := ⟨none, [⟨"x", .i32⟩]⟩
    let values : List Value := [.ofInt .i32 100000]
    squaresApart.WrittenIn "-x * x + (x*x + 0x1F) " ∧ squaresApart.OfKind context .i32 ∧
      context.Supplied .i32 values ∧ IntKind.i32.holds (100000 * 100000) = false ∧
      ∃ c x, b.compile context "-x * x + (x*x + 0x1F) " = .ok c ∧
        c.eval none values = .ok (.int .i32 x) ∧ IntKind.i32.toInt x = 31 := by
  intro b context values
  have hx : IsName ['x'] := ⟨⟨'x', [], rfl, rfl⟩, List.forall_mem_singleton.mpr rfl⟩
  have hnumeral : IsNumeral ['0', 'x', '1', 'F'] 31 :=
    .hex (.inl rfl) (by simp) (List.forall_mem_cons.mpr ⟨rfl, List.forall_mem_singleton.mpr rfl⟩)
  have hblank : Blank [' '] := List.forall_mem_singleton.mpr rfl
  have hnone : Blank [] := List.forall_mem_nil _
  have hsource : squaresApart.WrittenIn "-x * x + (x*x + 0x1F) " := by
    refine ⟨_, [' '], .add
      (.minus hnone (.mul (.operand (.name hnone hx)) hblank (.name hblank hx))) hblank
      (.operand
        (.parentheses hblank
          (.add (.product (.mul (.operand (.name hnone hx)) hnone (.name hnone hx)))
        hblank (.operand (.numeral hblank hnumeral))) hnone)), hblank, ?_⟩
    rfl
  have hkind : squaresApart.OfKind context .i32 := by
    have hname : (IntExpr.name "x").OfKind context .i32 := ⟨0, ⟨"x", .i32⟩, by decide, rfl⟩
    exact ⟨⟨rfl, hname, hname⟩, ⟨hname, hname⟩, rfl, by decide⟩
  have hvalues : context.Supplied .i32 values := by
    refine ⟨Nat.le_refl 1, fun i p v hp _ hv => ?_⟩
    cases i with
    | zero =>
      cases hv
      rfl
    | succ i => cases hp
  have hok : (b.compile context "-x * x + (x*x + 0x1F) ").toOption.isSome = true := by
    decide +kernel
  obtain ⟨c, hc⟩ := Option.isSome_iff_exists.mp hok
  have hc := Except.toOption_eq_some hc
  obtain ⟨-, hwraps⟩ := integers_wrap rfl hsource hkind hc
  obtain ⟨x, hx, -, hexact⟩ := hwraps none values hvalues
  have hvalue : squaresApart.value (context.number values) = 31 := by decide
  rw [hvalue] at hexact
  exact ⟨hsource, hkind, hvalues, by decide, c, x, hc, hx, hexact (by decide)⟩

end Binder

end Formula
