import Formula.Proofs.Lookup
import Formula.Registry.Standard
import Mathlib

/-!
# The ranking of overloads

Methods and indexers are registered in the order of their declarations, whichever types of a key
they are given to (`ClassEntry.Collects.registered_declareAll`). A look-up takes the first one of
least cost among those that apply (`FirstCheapest`); the cost is summed up over the arguments.

`Registry.overloads_ranked`: that is what both look-ups find, and they find nothing exactly if
nothing applies. `Registry.totalCost?_lt`: the sums are numbers of 32 bits for all calls with fewer
than `2 ^ 26` arguments.
-/

namespace Formula

/-! ## What is registered -/

/-- The items a declaration gives to the types of a key, each with the type it is given to. -/
def Declaration.itemsFor (key : TypeKey) : Declaration → List (Ty × ClassItem)
  | .extend owner items =>
    if TypeKey.of owner = key then items.map fun item => (owner, item) else []
  | .conversion .. => []

section

variable {α : Type} (part : Ty → ClassItem → Option α) (list : ClassEntry → List α)

/-- Parts of the items that declarations give to the types of a key, in order. -/
def declaredParts (ds : List Declaration) (key : TypeKey) : List α :=
  (ds.flatMap (Declaration.itemsFor key)).filterMap fun p => part p.1 p.2

/-- A list of an entry holds the parts of the items it was given. -/
structure ClassEntry.Collects : Prop where
  empty : list .empty = []
  add (owner : Ty) (entry : ClassEntry) (item : ClassItem) :
    list (entry.add owner item) = list entry ++ (part owner item).toList

end

/-- The methods that declarations give to the types of a key, in order. -/
abbrev declaredMethods : List Declaration → TypeKey → List MethodEntry :=
  declaredParts ClassItem.method?

/-- The indexers that declarations give to the types of a key, in order. -/
abbrev declaredIndexers : List Declaration → TypeKey → List Indexer :=
  declaredParts ClassItem.indexer?

theorem ClassEntry.collects_methods : Collects ClassItem.method? ClassEntry.methods :=
  ⟨rfl, fun _ _ _ => rfl⟩

theorem ClassEntry.collects_indexers : Collects ClassItem.indexer? ClassEntry.indexers :=
  ⟨rfl, fun _ _ _ => rfl⟩

namespace ClassEntry.Collects

variable {α : Type} {part : Ty → ClassItem → Option α} {list : ClassEntry → List α}

theorem addAll (h : Collects part list) (owner : Ty) (entry : ClassEntry) (items : List ClassItem) :
    list (items.foldl (ClassEntry.add owner) entry) =
      list entry ++ items.filterMap (part owner) := by
  induction items generalizing entry with
  | nil => simp
  | cons item items ih =>
    rw [List.foldl_cons, ih, h.add, List.append_assoc, List.filterMap_cons]
    cases part owner item <;> rfl

/-- A declaration adds its parts behind those that are registered. -/
theorem registered_declare (h : Collects part list) (r : Registry)
    (d : Declaration) (key : TypeKey) :
    (r.declare d).registered list key = r.registered list key ++ declaredParts part [d] key := by
  cases d with
  | conversion source target run =>
    simp [Registry.registered, Registry.declare, declaredParts, Declaration.itemsFor]
  | extend owner items =>
    unfold Registry.registered Registry.declare
    simp only [Table.get?_alter]
    by_cases hkey : key = .of owner
    · have hparts :
          declaredParts part [.extend owner items] key = items.filterMap (part owner) := by
        simp [declaredParts, Declaration.itemsFor, hkey, List.filterMap_map]
      rw [if_pos hkey, hparts, Option.map_some, Option.getD_some, h.addAll, hkey]
      cases r.classes.get? (.of owner) with
      | none => rw [Option.getD_none, h.empty, Option.map_none, Option.getD_none]
      | some entry => rfl
    · have hparts : declaredParts part [.extend owner items] key = [] := by
        simp [declaredParts, Declaration.itemsFor, Ne.symm hkey]
      rw [if_neg hkey, hparts, List.append_nil]

/-- After any declarations their parts are registered in order, behind those that were there
before. -/
theorem registered_declareAll (h : Collects part list) (r : Registry) (ds : List Declaration)
    (key : TypeKey) :
    (r.declareAll ds).registered list key = r.registered list key ++ declaredParts part ds key := by
  induction ds generalizing r with
  | nil => simp [Registry.declareAll, declaredParts]
  | cons d ds ih =>
    have hcons : declaredParts part (d :: ds) key =
        declaredParts part [d] key ++ declaredParts part ds key := by
      simp [declaredParts]
    rw [hcons, ← List.append_assoc, ← h.registered_declare]
    exact ih (r.declare d)

theorem registered_empty (h : Collects part list) (ds : List Declaration) (key : TypeKey) :
    (Registry.empty.declareAll ds).registered list key = declaredParts part ds key :=
  h.registered_declareAll .empty ds key

end ClassEntry.Collects

/-! ## The first of least cost -/

section

variable {α β : Type} {applies : α → Prop} {cost : α → Nat} {xs : List α} {x y : α}

/-- Of the entries of a list that apply, `x` has the least cost, and is the first to have it. -/
def FirstCheapest (applies : α → Prop) (cost : α → Nat) (xs : List α) (x : α) : Prop :=
  ∃ before after, xs = before ++ x :: after ∧ applies x ∧
    (∀ y ∈ before, applies y → cost x < cost y) ∧ ∀ y ∈ after, applies y → cost x ≤ cost y

theorem not_firstCheapest_nil : ¬ FirstCheapest applies cost [] x := by
  rintro ⟨before, after, h, -⟩
  cases before <;> cases h

theorem firstCheapest_cons :
    FirstCheapest applies cost (y :: xs) x ↔
      (x = y ∧ applies y ∧ ∀ z ∈ xs, applies z → cost y ≤ cost z) ∨
        FirstCheapest applies cost xs x ∧ (applies y → cost x < cost y) := by
  constructor
  · rintro ⟨before, after, h, happlies, hbefore, hafter⟩
    cases before with
    | nil =>
      cases h
      exact .inl ⟨rfl, happlies, hafter⟩
    | cons z before =>
      cases h
      obtain ⟨hz, hbefore⟩ := List.forall_mem_cons.mp hbefore
      exact .inr ⟨⟨before, after, rfl, happlies, hbefore, hafter⟩, hz⟩
  · rintro (⟨rfl, happlies, hafter⟩ | ⟨⟨before, after, rfl, happlies, hbefore, hafter⟩, hy⟩)
    · exact ⟨[], xs, rfl, happlies, by simp, hafter⟩
    · exact ⟨y :: before, after, rfl, happlies, List.forall_mem_cons.mpr ⟨hy, hbefore⟩, hafter⟩

namespace FirstCheapest

theorem spec (h : FirstCheapest applies cost xs x) :
    x ∈ xs ∧ applies x ∧ ∀ y ∈ xs, applies y → cost x ≤ cost y := by
  obtain ⟨before, after, rfl, happlies, hbefore, hafter⟩ := h
  refine ⟨List.mem_append_right before List.mem_cons_self, happlies, fun y hy hya => ?_⟩
  rcases List.mem_append.mp hy with hy | hy
  · exact Nat.le_of_lt (hbefore y hy hya)
  · rcases List.mem_cons.mp hy with rfl | hy
    · exact Nat.le_refl _
    · exact hafter y hy hya

/-- Where something applies, something is first of least cost. -/
theorem exists_of_applies (cost : α → Nat) (hy : y ∈ xs) (happlies : applies y) :
    ∃ x, FirstCheapest applies cost xs x := by
  induction xs generalizing y with
  | nil => cases hy
  | cons z zs ih =>
    by_cases hzs : ∃ y ∈ zs, applies y
    · obtain ⟨y, hy, happlies⟩ := hzs
      obtain ⟨x, hx⟩ := ih hy happlies
      by_cases hz : applies z ∧ cost z ≤ cost x
      · refine ⟨z, firstCheapest_cons.mpr (.inl ⟨rfl, hz.1, fun w hw h => ?_⟩)⟩
        exact Nat.le_trans hz.2 (hx.spec.2.2 w hw h)
      · refine ⟨x, firstCheapest_cons.mpr (.inr ⟨hx, fun h => ?_⟩)⟩
        exact Nat.lt_of_not_le fun hle => hz ⟨h, hle⟩
    · rcases List.mem_cons.mp hy with rfl | hy
      · exact ⟨y, firstCheapest_cons.mpr
          (.inl ⟨rfl, happlies, fun w hw h => (hzs ⟨w, hw, h⟩).elim⟩)⟩
      · exact (hzs ⟨y, hy, happlies⟩).elim

end FirstCheapest

/-- What is found in a list: nothing exactly if no entry applies, and otherwise what is made of the
first entry of least cost. -/
structure StableArgmin {γ : Type} (applies : α → Prop) (cost : α → Nat) (made : α → γ) (xs : List α)
    (found : Option γ) : Prop where
  none_iff : found = none ↔ ∀ x ∈ xs, ¬ applies x
  some_iff (y : γ) : found = some y ↔ ∃ x, FirstCheapest applies cost xs x ∧ y = made x

namespace Registry

variable {candidate : α → Option (Nat × β)} {made : α → β}
  (hcandidate : ∀ x n b, candidate x = some (n, b) ↔ applies x ∧ n = cost x ∧ b = made x)

include hcandidate

theorem candidate_none (h : ¬ applies x) : candidate x = none := by
  rcases hx : candidate x with _ | ⟨n, b⟩
  · rfl
  · exact (h ((hcandidate x n b).mp hx).1).elim

theorem candidate_some (h : applies x) : candidate x = some (cost x, made x) :=
  (hcandidate x _ _).mpr ⟨h, rfl, rfl⟩

/-- No candidate is picked exactly if nothing applies. -/
theorem cheapest_candidate_eq_none :
    cheapest (xs.filterMap candidate) = none ↔ ∀ x ∈ xs, ¬ applies x := by
  constructor
  · intro h x hx happlies
    have hmem := List.mem_filterMap.mpr ⟨x, hx, candidate_some hcandidate happlies⟩
    have hsome := cheapest_isSome (List.ne_nil_of_mem hmem)
    rw [h] at hsome
    cases hsome
  · intro h
    rw [List.filterMap_eq_nil_iff.mpr fun x hx => candidate_none hcandidate (h x hx)]
    rfl

/-- The first of least cost is picked. -/
theorem cheapest_candidate (h : FirstCheapest applies cost xs x) :
    cheapest (xs.filterMap candidate) = some (cost x, made x) := by
  induction xs with
  | nil => exact (not_firstCheapest_nil h).elim
  | cons y ys ih =>
    rcases firstCheapest_cons.mp h with ⟨rfl, happlies, hle⟩ | ⟨hys, hlt⟩
    · rw [List.filterMap_cons_some (candidate_some hcandidate happlies), cheapest]
      rcases hbest : cheapest (ys.filterMap candidate) with _ | ⟨n, b⟩
      · rfl
      · -- what is picked behind `x` costs no less than `x`
        obtain ⟨z, hz, hcand⟩ := List.mem_filterMap.mp (cheapest_mem hbest)
        obtain ⟨hza, rfl, -⟩ := (hcandidate z n b).mp hcand
        exact if_neg (Nat.not_lt.mpr (hle z hz hza))
    · by_cases hy : applies y
      · rw [List.filterMap_cons_some (candidate_some hcandidate hy), cheapest, ih hys]
        exact if_pos (hlt hy)
      · rw [List.filterMap_cons_none (candidate_none hcandidate hy)]
        exact ih hys

/-- What is made of the candidate that is picked. -/
theorem stableArgmin_cheapest {γ : Type} {wrap : Nat × β → γ} {make : α → γ}
    (hmake : ∀ x, wrap (cost x, made x) = make x) :
    StableArgmin applies cost make xs ((cheapest (xs.filterMap candidate)).map wrap) where
  none_iff := by rw [Option.map_eq_none_iff, cheapest_candidate_eq_none hcandidate]
  some_iff found := by
    rw [Option.map_eq_some_iff]
    constructor
    · rintro ⟨⟨n, b⟩, hbest, rfl⟩
      obtain ⟨y, hy, hcand⟩ := List.mem_filterMap.mp (cheapest_mem hbest)
      obtain ⟨x, hx⟩ := FirstCheapest.exists_of_applies cost hy ((hcandidate y n b).mp hcand).1
      rw [cheapest_candidate hcandidate hx] at hbest
      cases hbest
      exact ⟨x, hx, hmake x⟩
    · rintro ⟨x, hx, rfl⟩
      exact ⟨_, cheapest_candidate hcandidate hx, hmake x⟩

end Registry

end

/-! ## What applies, and at what cost -/

theorem Kind.mem_all (kind : Kind) : kind ∈ Kind.all := by
  rcases kind with k | _ | _ | _
  · cases k <;> decide
  all_goals decide

theorem Kind.rank_le (kind : Kind) : kind.rank ≤ 10 := by
  have hall : ∀ kind ∈ Kind.all, kind.rank ≤ 10 := by decide
  exact hall kind kind.mem_all

/-- A number widens to higher ranks. -/
theorem Kind.rank_lt_of_widens {a b : Kind} (h : a.widens b = true) (hne : a ≠ b) :
    a.rank < b.rank := by
  have hall : ∀ a ∈ Kind.all, ∀ b ∈ Kind.all, a.widens b = true → a ≠ b →
      a.rank < b.rank := by decide
  exact hall a a.mem_all b b.mem_all h hne

namespace Registry

theorem conversionCost_le (source target : Ty) : conversionCost source target ≤ 64 := by
  unfold conversionCost
  split
  · omega
  · split
    · rename_i a b _
      have := b.rank_le
      split <;> omega
    · omega
    · omega

theorem conversionCost_pos {source target : Ty} (hne : source ≠ target) :
    0 < conversionCost source target := by
  unfold conversionCost
  rw [if_neg hne]
  split
  · rename_i a b
    by_cases hwidens : a.widens b = true
    · have := Kind.rank_lt_of_widens hwidens fun h => hne (congrArg Ty.numeric h)
      rw [if_pos hwidens]
      omega
    · rw [if_neg hwidens]
      omega
  · omega
  · omega

variable (r : Registry)

/-- Whether there is an implicit conversion. -/
def Converts (source target : Ty) : Prop := (r.implicitConversion source target).isSome

/-- The cost of converting each argument to its parameter. -/
def conversionCosts (args params : List Ty) : Nat := (List.zipWith conversionCost args params).sum

theorem totalCost?_eq_some_iff {args params : List Ty} (hlength : params.length = args.length)
    {total : Nat} :
    r.totalCost? args params = some total ↔
      List.Forall₂ r.Converts args params ∧ total = conversionCosts args params := by
  induction args generalizing params total with
  | nil =>
    cases params with
    | nil => simp [totalCost?, conversionCosts, eq_comm]
    | cons p params => cases hlength
  | cons a args ih =>
    cases params with
    | nil => cases hlength
    | cons p params =>
      have hcosts : conversionCosts (a :: args) (p :: params) =
          conversionCost a p + conversionCosts args params := by
        simp [conversionCosts]
      rw [totalCost?, cost?_eq, List.forall₂_cons, hcosts, Converts]
      cases r.implicitConversion a p with
      | none => simp
      | some c =>
        simp only [Option.map_some, Option.map_eq_some_iff, ih (Nat.succ.inj hlength),
          Option.isSome_some, true_and]
        constructor
        · rintro ⟨rest, ⟨hrest, rfl⟩, rfl⟩
          exact ⟨hrest, rfl⟩
        · rintro ⟨hrest, rfl⟩
          exact ⟨_, ⟨hrest, rfl⟩, rfl⟩

theorem forall₂_replicate_iff {α β : Type} {R : α → β → Prop} {xs : List α} {n : Nat} {y : β} :
    List.Forall₂ R xs (List.replicate n y) ↔ xs.length = n ∧ ∀ x ∈ xs, R x y := by
  induction xs generalizing n with
  | nil => cases n <;> simp [List.replicate_succ]
  | cons x xs ih =>
    cases n with
    | zero => simp
    | succ n => simp [List.replicate_succ, ih, and_left_comm]

theorem conversionCosts_le (args params : List Ty) :
    conversionCosts args params ≤ 64 * args.length := by
  induction args generalizing params with
  | nil => simp [conversionCosts]
  | cons a args ih =>
    cases params with
    | nil => simp [conversionCosts]
    | cons p params =>
      have := conversionCost_le a p
      have := ih params
      simp only [conversionCosts, List.zipWith_cons_cons, List.sum_cons, List.length_cons] at this ⊢
      omega

/-- No conversion costs more than 64, so a sum of costs leaves 32 bits only for a call of that many
arguments. -/
theorem totalCost?_lt {args params : List Ty} (hparams : params.length = args.length) {total : Nat}
    (h : r.totalCost? args params = some total) (hargs : args.length < 2 ^ 26) :
    total < 2 ^ 32 := by
  obtain ⟨-, rfl⟩ := (r.totalCost?_eq_some_iff hparams).mp h
  have hle := conversionCosts_le args params
  omega

section

variable {α β : Type} {args : List Ty} {fits : α → Prop} {params : α → List Ty}

/-- An overload fits, and the arguments convert to its parameters. -/
def Applies (args : List Ty) (fits : α → Prop) (params : α → List Ty) (x : α) : Prop :=
  fits x ∧ List.Forall₂ r.Converts args (params x)

/-- A candidate is made of what applies, with the sum of the costs. -/
theorem candidate_eq_some [DecidablePred fits]
    (hfits : ∀ x, fits x → (params x).length = args.length) (body : α → β) (x : α) (n : Nat)
    (b : β × List Ty) :
    r.candidate args fits params body x = some (n, b) ↔
      r.Applies args fits params x ∧ n = conversionCosts args (params x) ∧
        b = (body x, params x) := by
  rw [candidate_eq_some_iff, Applies, and_assoc]
  refine and_congr_right fun h => ?_
  rw [r.totalCost?_eq_some_iff (hfits x h), and_assoc]

end

end Registry

/-! ## The look-ups -/

namespace Registry

variable (r : Registry) (ty : Ty) (name : String) (generics args : List Ty)

/-- A method that can be called with the arguments. -/
abbrev MethodApplies : MethodEntry → Prop :=
  r.Applies args (MethodEntry.Fits name generics args) fun e => (e.instantiate ty generics).params

/-- An indexer that can be used with the arguments. -/
abbrev IndexerApplies : Indexer → Prop :=
  r.Applies args (Indexer.Fits args) fun i => (i.instantiate ty).params

/-- What it costs to convert the arguments to the parameters of a method. -/
def methodCost (e : MethodEntry) : Nat := conversionCosts args (e.instantiate ty generics).params

/-- What it costs to convert the arguments to the parameters of an indexer. -/
def indexerCost (i : Indexer) : Nat := conversionCosts args (i.instantiate ty).params

/-- The method that is found is the first of least cost. -/
theorem findMethod_stableArgmin :
    StableArgmin (r.MethodApplies ty name generics args) (methodCost ty generics args)
      (fun e => (e.instantiate ty generics, (e.instantiate ty generics).params))
      (r.registered ClassEntry.methods (.of ty)) (r.findMethod ty name generics args) := by
  have hfits (e : MethodEntry) (h : e.Fits name generics args) :
      (e.instantiate ty generics).params.length = args.length := by
    rw [MethodEntry.instantiate, List.length_map]
    exact h.2.2
  rw [findMethod_eq]
  exact stableArgmin_cheapest (r.candidate_eq_some hfits MethodEntry.method) fun _ => rfl

/-- The indexer that is found is the first of least cost, other than in arrays. -/
theorem findIndexer_stableArgmin (harray : ∀ element rank, ty ≠ .array element rank) :
    StableArgmin (r.IndexerApplies ty args) (indexerCost ty args)
      (fun i => (i.instantiate ty, (i.instantiate ty).params))
      (r.registered ClassEntry.indexers (.of ty)) (r.findIndexer ty args) := by
  have hfits (i : Indexer) (h : i.Fits args) : (i.instantiate ty).params.length = args.length := by
    rw [Indexer.instantiate, List.length_map]
    exact h
  rw [r.findIndexer_eq harray]
  exact stableArgmin_cheapest (r.candidate_eq_some hfits id) fun _ => rfl

end Registry

/-! ## The owner -/

/-- A class with its parameters in place of the arguments, which are then put in. -/
theorem Ty.substitute_declared {ty : Ty} {space : Option String} {name : String} {arity : Nat}
    (hkey : TypeKey.of (.declared space name arity) = .of ty) (generics : List Ty) :
    Ty.substitute (ty.args ++ generics) (.declared space name arity) = ty := by
  cases ty with
  | named space' name' args =>
    simp only [Ty.declared, TypeKey.of, List.length_map, List.length_range,
      TypeKey.named.injEq] at hkey
    obtain ⟨rfl, rfl, rfl⟩ := hkey
    simp only [Ty.declared, Ty.substitute, Ty.substituteAll_eq_map, List.map_map,
      Ty.named.injEq, true_and]
    refine List.ext_getElem (by simp) fun i hi hi' => ?_
    simp [Ty.args, Ty.substitute, List.getElem?_append_left hi', List.getElem?_eq_getElem hi']
  | _ => cases hkey

/-- Every part comes from an item that is given to a type of the key. -/
theorem mem_declaredParts {α : Type} {part : Ty → ClassItem → Option α}
    {ds : List Declaration} {key : TypeKey} {x : α} (h : x ∈ declaredParts part ds key) :
    ∃ owner item, TypeKey.of owner = key ∧ part owner item = some x := by
  obtain ⟨⟨owner, item⟩, hitem, hpart⟩ := List.mem_filterMap.mp h
  obtain ⟨d, -, hd⟩ := List.mem_flatMap.mp hitem
  cases d with
  | conversion source target run => cases hd
  | extend ty items =>
    simp only [Declaration.itemsFor] at hd
    split at hd
    · rename_i hkey
      obtain ⟨_, _, hpair⟩ := List.mem_map.mp hd
      cases hpair
      exact ⟨owner, item, hkey, hpart⟩
    · cases hd

theorem ClassItem.method?_owner {owner : Ty} {item : ClassItem} {e : MethodEntry}
    (h : item.method? owner = some e) : e.method.owner = owner := by
  cases item <;> cases h <;> rfl

theorem ClassItem.indexer?_owner {owner : Ty} {item : ClassItem} {i : Indexer}
    (h : item.indexer? owner = some i) : i.owner = owner := by
  cases item <;> cases h
  rfl

namespace Registry

/-- The standard registry is one of those made of declarations. -/
theorem standard_declareAll (linked : List FloatFunction) (ds : List Declaration) :
    (standard linked).declareAll ds =
      empty.declareAll (builtins ++ linked.map FloatFunction.declaration ++ ds) := by
  simp [standard, declareAll, List.foldl_append]

/-- **Overload resolution is a stable argmin.** Whatever has been declared, a method or an indexer
is found exactly if one applies that was declared for the type: it has the name, as many type
parameters as there are type arguments and as many parameters as there are arguments, and the
arguments convert to them. Then the first one declared of those with the least sum of costs is
found, with the arguments of the type and the type arguments put in, and the arguments are to be
converted to its parameters. Its owner is the type, that is the class it was declared for with the
arguments put in. -/
theorem overloads_ranked (ds : List Declaration) (ty : Ty) (name : String)
    (generics args : List Ty) :
    let r := empty.declareAll ds
    StableArgmin (r.MethodApplies ty name generics args) (methodCost ty generics args)
        (fun e => (e.instantiate ty generics, (e.instantiate ty generics).params))
        (declaredMethods ds (.of ty)) (r.findMethod ty name generics args) ∧
      ((∀ element rank, ty ≠ .array element rank) →
        StableArgmin (r.IndexerApplies ty args) (indexerCost ty args)
          (fun i => (i.instantiate ty, (i.instantiate ty).params))
          (declaredIndexers ds (.of ty)) (r.findIndexer ty args)) ∧
      (∀ e ∈ declaredMethods ds (.of ty), ∀ space label arity,
        e.method.owner = .declared space label arity →
        (e.instantiate ty generics).owner = Ty.substitute (ty.args ++ generics) e.method.owner) ∧
      ∀ i ∈ declaredIndexers ds (.of ty), ∀ space label arity,
        i.owner = .declared space label arity →
        (i.instantiate ty).owner = Ty.substitute ty.args i.owner := by
  intro r
  refine ⟨?_, fun harray => ?_, fun e he space label arity howner => ?_,
    fun i hi space label arity howner => ?_⟩
  · rw [declaredMethods, ← ClassEntry.collects_methods.registered_empty]
    exact r.findMethod_stableArgmin ty name generics args
  · rw [declaredIndexers, ← ClassEntry.collects_indexers.registered_empty]
    exact r.findIndexer_stableArgmin ty args harray
  · obtain ⟨owner, item, hkey, hitem⟩ := mem_declaredParts he
    rw [← ClassItem.method?_owner hitem, howner] at hkey
    rw [howner, Ty.substitute_declared hkey]
    rfl
  · obtain ⟨owner, item, hkey, hitem⟩ := mem_declaredParts hi
    rw [← ClassItem.indexer?_owner hitem, howner] at hkey
    rw [howner, ← List.append_nil ty.args, Ty.substitute_declared hkey]
    rfl

/-- A generic class with three indexers. -/
def gridDeclaration : Declaration :=
  .extend (.declared (some "Demo") "Grid" 1) [
    .indexer [.object, .object] .string fun _ _ => .ok (.str "objects"),
    .indexer [.generic 0, .i64] .string fun _ _ => .ok (.str "first"),
    .indexer [.i64, .generic 0] .string fun _ _ => .ok (.str "second")]

/-- Two integers convert to `double` and `long` in both orders at the cost of seven, so the first of
the two indexers is found. -/
theorem overloads_ranked_tie :
    let r := (standard []).declareAll [gridDeclaration]
    let ty : Ty := .named (some "Demo") "Grid" [.f64]
    (∀ element rank, ty ≠ .array element rank) ∧
      ∃ i, r.findIndexer ty [.i32, .i32] = some (i, [.f64, .i64]) ∧ i.owner = ty ∧
        i.get (some .null) [] = .ok (.str "first") := by
  intro r ty
  have hr : r = empty.declareAll (builtins ++ [] ++ [gridDeclaration]) := standard_declareAll [] _
  have harray (element : Ty) (rank : Nat) : ty ≠ .array element rank := by
    simp [ty]
  have hranked :=
    (overloads_ranked (builtins ++ [] ++ [gridDeclaration]) ty "" [] [.i32, .i32]).2.1 harray
  rw [hr]
  refine ⟨harray, _, (hranked.some_iff _).mpr ⟨_, ⟨[_], [_], rfl, ?_, ?_, ?_⟩, rfl⟩, rfl, rfl⟩
  · exact ⟨rfl, .cons rfl (.cons rfl .nil)⟩
  · intro y hy _
    cases List.mem_singleton.mp hy
    decide
  · intro y hy _
    cases List.mem_singleton.mp hy
    decide

end Registry

end Formula
