import Formula.Registry

/-!
# What the look-ups of a registry find

Each look-up of a registry finds something built in or something registered, and all that is
registered was declared (`Registry.declareAll_madeOf`). Methods and indexers are picked in one and
the same way (`Registry.candidate`, `Registry.findMethod_eq`, `Registry.findIndexer_eq`).
-/

namespace Formula

/-! ## Where entries come from -/

/-- The declarations `ds` give the item to the type `owner`. -/
def Declared (ds : List Declaration) (owner : Ty) (item : ClassItem) : Prop :=
  ∃ items, Declaration.extend owner items ∈ ds ∧ item ∈ items

/-- All that is registered in an entry was given to a type as an item, in a way `P` allows. -/
structure ClassEntry.MadeOf (P : Ty → ClassItem → Prop) (entry : ClassEntry) : Prop where
  member : ∀ name m, entry.members.get? name = some m →
    ∃ owner item, P owner item ∧ item.member? = some m
  method : ∀ e ∈ entry.methods, ∃ owner item, P owner item ∧ item.method? owner = some e
  indexer : ∀ i ∈ entry.indexers, ∃ owner item, P owner item ∧ item.indexer? owner = some i

namespace ClassEntry.MadeOf

variable {P Q : Ty → ClassItem → Prop} {entry : ClassEntry}

theorem empty : ClassEntry.empty.MadeOf P :=
  ⟨fun _ _ h => by simp [ClassEntry.empty] at h, fun _ h => by simp [ClassEntry.empty] at h,
    fun _ h => by simp [ClassEntry.empty] at h⟩

theorem mono (h : entry.MadeOf P) (hPQ : ∀ owner item, P owner item → Q owner item) :
    entry.MadeOf Q := by
  refine ⟨fun name m hm => ?_, fun e he => ?_, fun i hi => ?_⟩
  · obtain ⟨owner, item, hP, hitem⟩ := h.member name m hm
    exact ⟨owner, item, hPQ _ _ hP, hitem⟩
  · obtain ⟨owner, item, hP, hitem⟩ := h.method e he
    exact ⟨owner, item, hPQ _ _ hP, hitem⟩
  · obtain ⟨owner, item, hP, hitem⟩ := h.indexer i hi
    exact ⟨owner, item, hPQ _ _ hP, hitem⟩

theorem add {owner : Ty} {item : ClassItem} (h : entry.MadeOf P) (hitem : P owner item) :
    (entry.add owner item).MadeOf P := by
  refine ⟨fun name m hm => ?_, fun e he => ?_, fun i hi => ?_⟩
  · simp only [ClassEntry.add] at hm
    cases hm' : item.member? with
    | none =>
      rw [hm'] at hm
      exact h.member name m hm
    | some m' =>
      rw [hm'] at hm
      simp only [Table.insert, Table.get?_alter] at hm
      split at hm
      · cases hm
        exact ⟨owner, item, hitem, hm'⟩
      · exact h.member name m hm
  · rcases List.mem_append.mp he with he | he
    · exact h.method e he
    · exact ⟨owner, item, hitem, Option.mem_toList.mp he⟩
  · rcases List.mem_append.mp hi with hi | hi
    · exact h.indexer i hi
    · exact ⟨owner, item, hitem, Option.mem_toList.mp hi⟩

theorem addAll {owner : Ty} {items : List ClassItem} (h : entry.MadeOf P)
    (hitems : ∀ item ∈ items, P owner item) :
    (items.foldl (ClassEntry.add owner) entry).MadeOf P := by
  induction items generalizing entry with
  | nil => exact h
  | cons item items ih =>
    exact ih (h.add (hitems item List.mem_cons_self)) fun i hi =>
      hitems i (List.mem_cons_of_mem item hi)

end ClassEntry.MadeOf

namespace Registry

/-- All that is registered was declared: items for a type of the same key, and conversions. -/
structure MadeOf (ds : List Declaration) (r : Registry) : Prop where
  entry : ∀ key entry, r.classes.get? key = some entry →
    entry.MadeOf fun owner item => Declared ds owner item ∧ TypeKey.of owner = key
  conversion : ∀ source target run, r.conversions.get? (source, target) = some run →
    Declaration.conversion source target run ∈ ds

theorem empty_madeOf : empty.MadeOf [] :=
  ⟨fun _ _ h => by simp [empty] at h, fun _ _ _ h => by simp [empty] at h⟩

theorem MadeOf.mono {ds ds' : List Declaration} {r : Registry} (h : r.MadeOf ds) (hds : ds ⊆ ds') :
    r.MadeOf ds' := by
  refine ⟨fun key entry hentry => (h.entry key entry hentry).mono ?_,
    fun source target run hrun => hds (h.conversion source target run hrun)⟩
  rintro owner item ⟨⟨items, hitems, hitem⟩, hkey⟩
  exact ⟨⟨items, hds hitems, hitem⟩, hkey⟩

/-- Carrying out a declaration adds what it gives. -/
theorem declare_madeOf {ds : List Declaration} {r : Registry} (h : r.MadeOf ds) (d : Declaration) :
    (r.declare d).MadeOf (ds ++ [d]) := by
  have h' := h.mono (List.subset_append_left ds [d])
  have hd : d ∈ ds ++ [d] := List.mem_append_right ds (List.mem_singleton_self d)
  cases d with
  | extend ty items =>
    refine ⟨fun key entry hentry => ?_, h'.conversion⟩
    simp only [declare, Table.get?_alter] at hentry
    split at hentry
    · rename_i hkey
      cases hentry
      refine ClassEntry.MadeOf.addAll ?_ fun item hitem => ⟨⟨items, hd, hitem⟩, hkey.symm⟩
      rw [← hkey]
      cases hold : r.classes.get? key with
      | none => exact .empty
      | some old => exact h'.entry key old hold
    · exact h'.entry key entry hentry
  | conversion source target run =>
    refine ⟨h'.entry, fun source' target' run' hrun => ?_⟩
    simp only [declare, Table.insert, Table.get?_alter] at hrun
    split at hrun
    · rename_i hkey
      cases hkey
      cases hrun
      exact hd
    · exact h'.conversion source' target' run' hrun

/-- All that is registered after any declarations was declared. -/
theorem declareAll_madeOf {ds : List Declaration} {r : Registry} (h : r.MadeOf ds)
    (ds' : List Declaration) : (r.declareAll ds').MadeOf (ds ++ ds') := by
  induction ds' generalizing ds r with
  | nil => simpa [declareAll] using h
  | cons d ds' ih => simpa [declareAll] using ih (declare_madeOf h d)

/-! ## Conversions -/

variable {r : Registry}

/-- Between different types nothing is done on the way to `object`, numbers widen, and all other
conversions are declared. -/
theorem implicitConversion_cases {source target : Ty} {c : Conversion}
    (h : r.implicitConversion source target = some c) (hne : source ≠ target) :
    c = .identity ∧ target = .object ∨
      (∃ a b, source = .numeric a ∧ target = .numeric b ∧ c = .numeric b) ∨
      ∃ run, r.conversions.get? (source, target) = some run ∧ c = .custom run := by
  unfold implicitConversion at h
  rw [if_neg hne] at h
  simp only at h
  split at h
  · split at h
    · cases h
      exact .inr (.inl ⟨_, _, rfl, rfl, rfl⟩)
    · obtain ⟨run, hrun, rfl⟩ := Option.map_eq_some_iff.mp h
      exact .inr (.inr ⟨run, hrun, rfl⟩)
  · cases h
    exact .inl ⟨rfl, rfl⟩
  · obtain ⟨run, hrun, rfl⟩ := Option.map_eq_some_iff.mp h
    exact .inr (.inr ⟨run, hrun, rfl⟩)

/-- What a conversion costs, if there is one: nothing to the same type, the distance in rank for a
widening, 64 to `object`, and 32 for a declared one. -/
def conversionCost (source target : Ty) : Nat :=
  if source = target then 0
  else
    match source, target with
    | .numeric a, .numeric b => if a.widens b then b.rank - a.rank else 32
    | _, .object => 64
    | _, _ => 32

/-- There is a cost exactly for what there is a conversion for. -/
theorem cost?_eq (r : Registry) (source target : Ty) :
    r.cost? source target =
      (r.implicitConversion source target).map fun _ => conversionCost source target := by
  have hdeclared : (if r.conversions.contains (source, target) then some customCost else none) =
      ((r.conversions.get? (source, target)).map Conversion.custom).map fun _ => 32 := by
    rw [Table.contains]
    cases r.conversions.get? (source, target) <;> rfl
  by_cases heq : source = target
  · simp [cost?, implicitConversion, conversionCost, heq]
  · unfold cost? implicitConversion conversionCost
    simp only [if_neg heq]
    cases target with
    | object => cases source <;> rfl
    | numeric b =>
      cases source with
      | numeric a =>
        by_cases hwidens : a.widens b = true
        · simp [hwidens]
        · simpa [hwidens] using hdeclared
      | _ => exact hdeclared
    | _ => cases source <;> exact hdeclared

/-- What has a cost is what there is a conversion for. -/
theorem cost?_isSome (r : Registry) (source target : Ty) :
    (r.cost? source target).isSome = (r.implicitConversion source target).isSome := by
  rw [cost?_eq, Option.isSome_map]

theorem cheapest_mem {α : Type} {xs : List (Nat × α)} {x : Nat × α} (h : cheapest xs = some x) :
    x ∈ xs := by
  induction xs generalizing x with
  | nil => cases h
  | cons y ys ih =>
    simp only [cheapest] at h
    cases hy : cheapest ys with
    | none =>
      rw [hy] at h
      cases h
      exact List.mem_cons_self
    | some z =>
      simp only [hy] at h
      split at h <;> cases h
      · exact List.mem_cons_of_mem y (ih hy)
      · exact List.mem_cons_self

theorem cheapest_isSome {α : Type} {xs : List (Nat × α)} (h : xs ≠ []) : (cheapest xs).isSome := by
  cases xs with
  | nil => exact (h rfl).elim
  | cons x xs =>
    unfold cheapest
    split
    · rfl
    · split <;> rfl

/-! ## Overloads -/

/-- Parts that are registered for a key, in order. -/
def registered {α : Type} (list : ClassEntry → List α) (r : Registry) (key : TypeKey) : List α :=
  ((r.classes.get? key).map list).getD []

theorem mem_registered {α : Type} {list : ClassEntry → List α} {key : TypeKey} {x : α} :
    x ∈ r.registered list key ↔ ∃ entry, r.classes.get? key = some entry ∧ x ∈ list entry := by
  unfold registered
  cases r.classes.get? key <;> simp

/-- What a look-up makes of an overload: nothing, or its cost and its parameters. -/
def candidate {α β : Type} (r : Registry) (args : List Ty) (fits : α → Prop) (params : α → List Ty)
    [DecidablePred fits] (body : α → β) (x : α) : Option (Nat × β × List Ty) :=
  if fits x then (r.totalCost? args (params x)).map (·, body x, params x) else none

theorem candidate_eq_some_iff {α β : Type} {args : List Ty} {fits : α → Prop} {params : α → List Ty}
    [DecidablePred fits] {body : α → β} {x : α} {n : Nat} {b : β × List Ty} :
    r.candidate args fits params body x = some (n, b) ↔
      fits x ∧ r.totalCost? args (params x) = some n ∧ b = (body x, params x) := by
  unfold candidate
  by_cases h : fits x
  · rw [if_pos h, Option.map_eq_some_iff]
    constructor
    · rintro ⟨total, htotal, hpair⟩
      cases hpair
      exact ⟨h, htotal, rfl⟩
    · rintro ⟨-, htotal, rfl⟩
      exact ⟨n, htotal, rfl⟩
  · simp [h]

end Registry

/-- The method of an entry for a type and type arguments, which are put into its types one after the
other. -/
def MethodEntry.instantiate (ty : Ty) (generics : List Ty) (e : MethodEntry) : Method :=
  { e.method with
    owner := ty
    params := e.method.params.map (Ty.substitute (ty.args ++ generics))
    result := Ty.substitute (ty.args ++ generics) e.method.result }

/-- The indexer for a type, the arguments of which are put into its types. -/
def Indexer.instantiate (ty : Ty) (i : Indexer) : Indexer :=
  { i with
    owner := ty
    params := i.params.map (Ty.substitute ty.args)
    result := Ty.substitute ty.args i.result }

/-- An entry has the name, as many type parameters as there are type arguments, and as many
parameters as there are arguments. -/
def MethodEntry.Fits (name : String) (generics args : List Ty) (e : MethodEntry) : Prop :=
  e.method.name = name ∧ e.generics = generics.length ∧ e.method.params.length = args.length

/-- An indexer has as many parameters as there are arguments. -/
def Indexer.Fits (args : List Ty) (i : Indexer) : Prop := i.params.length = args.length

instance (name : String) (generics args : List Ty) :
    DecidablePred (MethodEntry.Fits name generics args) :=
  fun _ => inferInstanceAs (Decidable (_ ∧ _ ∧ _))

instance (args : List Ty) : DecidablePred (Indexer.Fits args) :=
  fun _ => inferInstanceAs (Decidable (_ = _))

namespace Registry

variable {r : Registry}

/-- The cheapest candidate is made the method. -/
theorem findMethod_eq (r : Registry) (ty : Ty) (name : String) (generics args : List Ty) :
    r.findMethod ty name generics args =
      (cheapest ((r.registered ClassEntry.methods (.of ty)).filterMap
        (r.candidate args (MethodEntry.Fits name generics args)
          (fun e => (e.instantiate ty generics).params) MethodEntry.method))).map fun found =>
        ({ found.2.1 with
            owner := ty
            params := found.2.2
            result := Ty.substitute (ty.args ++ generics) found.2.1.result }, found.2.2) := by
  unfold findMethod registered
  cases r.classes.get? (.of ty) <;> rfl

/-- The cheapest candidate is made the indexer, other than in arrays. -/
theorem findIndexer_eq (r : Registry) {ty : Ty} (harray : ∀ element rank, ty ≠ .array element rank)
    (args : List Ty) :
    r.findIndexer ty args =
      (cheapest ((r.registered ClassEntry.indexers (.of ty)).filterMap
        (r.candidate args (Indexer.Fits args) (fun i => (i.instantiate ty).params) id))).map
          fun found =>
        ({ found.2.1 with
            owner := ty
            params := found.2.2
            result := Ty.substitute ty.args found.2.1.result }, found.2.2) := by
  unfold findIndexer registered
  split
  · exact (harray _ _ rfl).elim
  · cases r.classes.get? (.of ty) <;> rfl

/-! ## What is found -/

/-- A member is the length of an array, or it is registered. -/
theorem findMember_cases {ty : Ty} {name : String} {f : Member}
    (h : r.findMember ty name = some f) :
    (∃ element rank, ty = .array element rank ∧ f = arrayLength) ∨
      ∃ entry m, r.classes.get? (.of ty) = some entry ∧ entry.members.get? name = some m ∧
        f = { m with ty := Ty.substitute ty.args m.ty } := by
  unfold findMember at h
  split at h
  · split at h
    · cases h
      exact .inl ⟨_, _, rfl, rfl⟩
    · cases h
  · cases hentry : r.classes.get? (.of ty) with
    | none =>
      rw [hentry] at h
      cases h
    | some entry =>
      rw [hentry] at h
      obtain ⟨m, hm, rfl⟩ := Option.map_eq_some_iff.mp h
      exact .inr ⟨entry, m, rfl, hm, rfl⟩

/-- A method is registered under the name, with as many type parameters as there are type arguments,
and the arguments can be converted to its parameters. -/
theorem findMethod_applies {ty : Ty} {name : String} {generics args params : List Ty} {f : Method}
    (h : r.findMethod ty name generics args = some (f, params)) :
    ∃ entry e, r.classes.get? (.of ty) = some entry ∧ e ∈ entry.methods ∧
      (e.method.name = name ∧ e.generics = generics.length ∧ e.method.params.length = args.length) ∧
      (r.totalCost? args params).isSome ∧
      params = e.method.params.map (Ty.substitute (ty.args ++ generics)) ∧
      f = { e.method with
        owner := ty, params, result := Ty.substitute (ty.args ++ generics) e.method.result } := by
  rw [findMethod_eq] at h
  obtain ⟨⟨total, body, params'⟩, hcheapest, hfound⟩ := Option.map_eq_some_iff.mp h
  obtain ⟨e, he, hcandidate⟩ := List.mem_filterMap.mp (cheapest_mem hcheapest)
  obtain ⟨hfits, hcost, hbody⟩ := candidate_eq_some_iff.mp hcandidate
  obtain ⟨entry, hentry, he⟩ := mem_registered.mp he
  cases hbody
  cases hfound
  exact ⟨entry, e, hentry, he, hfits, Option.isSome_of_eq_some hcost, rfl, rfl⟩

/-- A method is registered, with as many type parameters as there are type arguments. -/
theorem findMethod_cases {ty : Ty} {name : String} {generics args params : List Ty} {f : Method}
    (h : r.findMethod ty name generics args = some (f, params)) :
    ∃ entry e, r.classes.get? (.of ty) = some entry ∧ e ∈ entry.methods ∧
      e.generics = generics.length ∧
      params = e.method.params.map (Ty.substitute (ty.args ++ generics)) ∧
      f = { e.method with
        owner := ty, params, result := Ty.substitute (ty.args ++ generics) e.method.result } := by
  obtain ⟨entry, e, hentry, he, hfits, -, hparams, hf⟩ := findMethod_applies h
  exact ⟨entry, e, hentry, he, hfits.2.1, hparams, hf⟩

/-- Where an entry applies, a method is found. -/
theorem findMethod_isSome {ty : Ty} {generics args : List Ty} {entry : ClassEntry} {e : MethodEntry}
    (hentry : r.classes.get? (.of ty) = some entry) (he : e ∈ entry.methods)
    (hgenerics : e.generics = generics.length) (hlength : e.method.params.length = args.length)
    (hcost :
      (r.totalCost? args (e.method.params.map (Ty.substitute (ty.args ++ generics)))).isSome) :
    (r.findMethod ty e.method.name generics args).isSome := by
  obtain ⟨total, htotal⟩ := Option.isSome_iff_exists.mp hcost
  have hcandidate : r.candidate args (MethodEntry.Fits e.method.name generics args)
      (fun e => (e.instantiate ty generics).params) MethodEntry.method e =
        some (total, e.method, (e.instantiate ty generics).params) :=
    candidate_eq_some_iff.mpr ⟨⟨rfl, hgenerics, hlength⟩, htotal, rfl⟩
  rw [findMethod_eq, Option.isSome_map]
  exact cheapest_isSome (List.ne_nil_of_mem
    (List.mem_filterMap.mpr ⟨e, mem_registered.mpr ⟨entry, hentry, he⟩, hcandidate⟩))

/-- An indexer is that of an array, or it is registered. -/
theorem findIndexer_cases {ty : Ty} {args params : List Ty} {f : Indexer}
    (h : r.findIndexer ty args = some (f, params)) :
    (∃ element rank, ty = .array element rank ∧ f = arrayIndexer ty element rank ∧
        params = List.replicate rank .i64) ∨
      ∃ entry i, r.classes.get? (.of ty) = some entry ∧ i ∈ entry.indexers ∧
        params = i.params.map (Ty.substitute ty.args) ∧
        f = { i with owner := ty, params, result := Ty.substitute ty.args i.result } := by
  by_cases harray : ∃ element rank, ty = .array element rank
  · obtain ⟨element, rank, rfl⟩ := harray
    simp only [findIndexer] at h
    split at h
    · cases h
      exact .inl ⟨_, _, rfl, rfl, rfl⟩
    · cases h
  · rw [r.findIndexer_eq fun element rank hty => harray ⟨element, rank, hty⟩] at h
    obtain ⟨⟨total, body, params'⟩, hcheapest, hfound⟩ := Option.map_eq_some_iff.mp h
    obtain ⟨i, hi, hcandidate⟩ := List.mem_filterMap.mp (cheapest_mem hcheapest)
    obtain ⟨-, -, hbody⟩ := candidate_eq_some_iff.mp hcandidate
    obtain ⟨entry, hentry, hi⟩ := mem_registered.mp hi
    cases hbody
    cases hfound
    exact .inr ⟨entry, i, hentry, hi, rfl, rfl⟩

end Registry

end Formula
