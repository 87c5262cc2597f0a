import Formula.Proofs.Overloads

/-!
# Registries that grow

Declarations only add. So a registry keeps what it had under all further ones (`Registry.Grows`):
the keys it knows, the conversions, and its methods and indexers, in front of those that come later.
What a declaration does not name is as it was before (`Registry.declareAll_class`,
`Registry.declareAll_conversion`).

A look-up that picks the first overload of least cost then goes on to find one, at no higher cost.
It picks another one only if that is cheaper, or if an argument of it could not be converted before
(`Opens`).

`Registry.declareAll_keeps_lookups` says so of all look-ups.
-/

namespace Formula

/-! ## The first of least cost, among more -/

section

variable {α γ : Type} {applies applies' : α → Prop} {cost : α → Nat} {xs ys : List α} {x : α}

/-- What is first of least cost is so among fewer, if it is one of them. -/
theorem FirstCheapest.weaken (h : FirstCheapest applies' cost xs x)
    (happlies : ∀ y, applies y → applies' y) (hx : applies x) :
    FirstCheapest applies cost xs x := by
  obtain ⟨before, after, rfl, -, hbefore, hafter⟩ := h
  exact ⟨before, after, rfl, hx, fun y hy hya => hbefore y hy (happlies y hya),
    fun y hy hya => hafter y hy (happlies y hya)⟩

/-- What is first of least cost in a longer list is so in its first part, or costs less than all in
there. -/
theorem FirstCheapest.append_cases (h : FirstCheapest applies cost (xs ++ ys) x) :
    FirstCheapest applies cost xs x ∨ ∀ y ∈ xs, applies y → cost x < cost y := by
  obtain ⟨before, after, hsplit, hx, hbefore, hafter⟩ := h
  rcases List.append_eq_append_iff.mp hsplit with ⟨mid, rfl, -⟩ | ⟨mid, rfl, hmid⟩
  · exact .inr fun y hy => hbefore y (List.mem_append_left mid hy)
  · cases mid with
    | nil => exact .inr fun y hy => hbefore y (by simpa using hy)
    | cons z mid =>
      cases hmid
      exact .inl ⟨before, mid, rfl, hx, hbefore, fun y hy => hafter y (List.mem_append_left ys hy)⟩

variable {make : α → γ} {found found' : Option γ}

/-- Among more, something is found at no higher cost. It is the same, or it is cheaper, or it did
not apply before. -/
theorem StableArgmin.grows (h : StableArgmin applies cost make xs found)
    (h' : StableArgmin applies' cost make (xs ++ ys) found')
    (happlies : ∀ y, applies y → applies' y) {m : γ} (hfound : found = some m) :
    ∃ x x', (applies x ∧ m = make x) ∧ (applies' x' ∧ found' = some (make x')) ∧ cost x' ≤ cost x ∧
      (make x' = m ∨ cost x' < cost x ∨ ¬ applies x') := by
  obtain ⟨x, hx, rfl⟩ := (h.some_iff m).mp hfound
  obtain ⟨hmem, hxa, -⟩ := hx.spec
  have hmem' : x ∈ xs ++ ys := List.mem_append_left ys hmem
  obtain ⟨x', hx'⟩ := FirstCheapest.exists_of_applies cost hmem' (happlies x hxa)
  obtain ⟨-, hxa', hle⟩ := hx'.spec
  refine ⟨x, x', ⟨hxa, rfl⟩, ⟨hxa', (h'.some_iff _).mpr ⟨x', hx', rfl⟩⟩,
    hle x hmem' (happlies x hxa), ?_⟩
  by_cases hbefore : applies x'
  · rcases hx'.append_cases with hfirst | hcheaper
    · have hsame := (h.some_iff _).mpr ⟨x', hfirst.weaken happlies hbefore, rfl⟩
      exact .inl (Option.some.inj (hsame.symm.trans hfound))
    · exact .inr (.inl (hcheaper x hmem (happlies x hxa)))
  · exact .inr (.inr hbefore)

/-- In the same list the same is found, or something that did not apply before. -/
theorem StableArgmin.same_or (h : StableArgmin applies cost make xs found)
    (h' : StableArgmin applies' cost make xs found') (happlies : ∀ y, applies y → applies' y) :
    found' = found ∨ ∃ x, (applies' x ∧ found' = some (make x)) ∧ ¬ applies x := by
  rcases hfound' : found' with _ | m
  · have hnone := h'.none_iff.mp hfound'
    exact .inl (h.none_iff.mpr fun x hx hxa => hnone x hx (happlies x hxa)).symm
  · obtain ⟨x, hx, rfl⟩ := (h'.some_iff m).mp hfound'
    by_cases hbefore : applies x
    · exact .inl ((h.some_iff _).mpr ⟨x, hx.weaken happlies hbefore, rfl⟩).symm
    · exact .inr ⟨x, ⟨hx.spec.2.1, rfl⟩, hbefore⟩

end

/-! ## What declarations add -/

/-- The key of the type that a declaration gives items to. -/
def Declaration.key? : Declaration → Option TypeKey
  | .extend ty _ => some (.of ty)
  | .conversion .. => none

/-- The types that a declaration is a conversion between. -/
def Declaration.pair? : Declaration → Option (Ty × Ty)
  | .extend .. => none
  | .conversion source target _ => some (source, target)

namespace Registry

/-- There is a conversion between two types if they are the same, if numbers widen, to `object`, and
if one is declared. -/
theorem converts_iff {r : Registry} {source target : Ty} :
    r.Converts source target ↔ source = target ∨
      (∃ a b, source = .numeric a ∧ target = .numeric b ∧ a.widens b = true) ∨ target = .object ∨
      r.conversions.contains (source, target) = true := by
  unfold Converts implicitConversion Table.contains
  by_cases heq : source = target
  · simp [heq]
  · rw [if_neg heq]
    cases target with
    | numeric b =>
      cases source with
      | numeric a =>
        have hne : ¬ a = b := fun hab => heq (congrArg Ty.numeric hab)
        by_cases hwidens : a.widens b = true <;> simp [hwidens, hne]
      | _ => simp
    | _ => cases source <;> simp_all

/-- The registry `s` has what `r` has, and perhaps more. -/
structure Grows (r s : Registry) : Prop where
  knows {key : TypeKey} : r.classes.contains key = true → s.classes.contains key = true
  converts {source target : Ty} : r.Converts source target → s.Converts source target
  methods (key : TypeKey) :
    r.registered ClassEntry.methods key <+: s.registered ClassEntry.methods key
  indexers (key : TypeKey) :
    r.registered ClassEntry.indexers key <+: s.registered ClassEntry.indexers key

namespace Grows

variable {r s t : Registry}

theorem refl (r : Registry) : r.Grows r :=
  ⟨id, id, fun _ => List.prefix_rfl, fun _ => List.prefix_rfl⟩

theorem trans (h : r.Grows s) (h' : s.Grows t) : r.Grows t :=
  ⟨fun hkey => h'.knows (h.knows hkey), fun hpair => h'.converts (h.converts hpair),
    fun key => (h.methods key).trans (h'.methods key),
    fun key => (h.indexers key).trans (h'.indexers key)⟩

end Grows

variable (r : Registry)

private theorem contains_alter {κ α : Type} [DecidableEq κ] {t : Table κ α} {key other : κ}
    {change : Option α → α} (h : t.contains other = true) :
    (t.alter key change).contains other = true := by
  rw [Table.contains, Table.get?_alter]
  split
  · rfl
  · exact h

/-- One declaration adds. -/
theorem declare_grows (d : Declaration) : r.Grows (r.declare d) where
  knows h := by
    cases d with
    | extend ty items => exact contains_alter h
    | conversion source target run => exact h
  converts h := by
    cases d with
    | extend ty items => exact h
    | conversion source target run =>
      rw [converts_iff] at h ⊢
      exact h.imp_right (.imp_right (.imp_right contains_alter))
  methods key := by
    rw [ClassEntry.collects_methods.registered_declare]
    exact List.prefix_append _ _
  indexers key := by
    rw [ClassEntry.collects_indexers.registered_declare]
    exact List.prefix_append _ _

/-- All declarations add. -/
theorem declareAll_grows (ds : List Declaration) : r.Grows (r.declareAll ds) := by
  induction ds generalizing r with
  | nil => exact .refl r
  | cons d ds ih => exact (r.declare_grows d).trans (ih (r.declare d))

/-- What is registered for a key that no declaration names stays as it is. -/
theorem declareAll_class {ds : List Declaration} {key : TypeKey}
    (h : key ∉ ds.filterMap Declaration.key?) :
    (r.declareAll ds).classes.get? key = r.classes.get? key := by
  induction ds generalizing r with
  | nil => rfl
  | cons d ds ih =>
    cases d with
    | extend ty items =>
      obtain ⟨hne, h⟩ := not_or.mp (mt List.mem_cons.mpr h)
      refine (ih _ h).trans ?_
      rw [declare, Table.get?_alter, if_neg hne]
    | conversion source target run => exact ih (r.declare (.conversion source target run)) h

/-- A conversion between types that no declaration names together stays as it is. -/
theorem declareAll_conversion {ds : List Declaration} {pair : Ty × Ty}
    (h : pair ∉ ds.filterMap Declaration.pair?) :
    (r.declareAll ds).conversions.get? pair = r.conversions.get? pair := by
  induction ds generalizing r with
  | nil => rfl
  | cons d ds ih =>
    cases d with
    | extend ty items => exact ih (r.declare (.extend ty items)) h
    | conversion source target run =>
      obtain ⟨hne, h⟩ := not_or.mp (mt List.mem_cons.mpr h)
      refine (ih _ h).trans ?_
      rw [declare, Table.insert, Table.get?_alter, if_neg hne]

/-! ## Look-ups in what has grown -/

variable {r} {s : Registry} {args params : List Ty}

/-- There is a conversion in `s`, and none in `r`. -/
def Opens (r s : Registry) (source target : Ty) : Prop :=
  ¬ r.Converts source target ∧ s.Converts source target

theorem implicitConversion_congr {source target : Ty}
    (h : s.conversions.get? (source, target) = r.conversions.get? (source, target)) :
    s.implicitConversion source target = r.implicitConversion source target := by
  unfold implicitConversion
  rw [h]

/-- A conversion opens between types that are declared to convert, and between no others. -/
theorem mem_of_opens {ds : List Declaration} {source target : Ty}
    (h : r.Opens (r.declareAll ds) source target) :
    (source, target) ∈ ds.filterMap Declaration.pair? := by
  by_contra hnot
  have hsame := implicitConversion_congr (r.declareAll_conversion hnot)
  refine h.1 ?_
  rw [Converts, ← hsame]
  exact h.2

/-- If arguments convert in `s` and not in `r`, then the conversion of one of them opens. -/
theorem exists_opens (h : List.Forall₂ s.Converts args params)
    (hnot : ¬ List.Forall₂ r.Converts args params) :
    ∃ p ∈ args.zip params, r.Opens s p.1 p.2 := by
  induction h with
  | nil => exact (hnot .nil).elim
  | @cons a b args params hab h ih =>
    by_cases hbefore : r.Converts a b
    · obtain ⟨p, hp, hopens⟩ := ih fun hargs => hnot (.cons hbefore hargs)
      exact ⟨p, List.mem_cons_of_mem _ hp, hopens⟩
    · exact ⟨(a, b), List.mem_cons_self, hbefore, hab⟩

theorem Applies.totalCost? {α : Type} {fits : α → Prop} {params : α → List Ty} {x : α}
    (h : r.Applies args fits params x) :
    r.totalCost? args (params x) = some (conversionCosts args (params x)) :=
  (r.totalCost?_eq_some_iff h.2.length_eq.symm).mpr ⟨h.2, rfl⟩

theorem Grows.applies (hg : r.Grows s) {α : Type} {fits : α → Prop} {params : α → List Ty} (x : α)
    (h : r.Applies args fits params x) : s.Applies args fits params x :=
  ⟨h.1, h.2.imp fun _ _ => hg.converts⟩

theorem Applies.exists_opens {α : Type} {fits : α → Prop} {params : α → List Ty} {x : α}
    (h : s.Applies args fits params x) (hnot : ¬ r.Applies args fits params x) :
    ∃ p ∈ args.zip (params x), r.Opens s p.1 p.2 :=
  Registry.exists_opens h.2 fun hargs => hnot ⟨h.1, hargs⟩

/-- What a look-up found in `r` is found in `s` as well, or something at no higher cost. The
parameters of what is found come with it. It is something else only if that is cheaper, or if the
conversion of an argument opens. -/
def Keeps {β : Type} (r s : Registry) (args : List Ty)
    (before after : Option (β × List Ty)) : Prop :=
  ∀ m params, before = some (m, params) → ∃ m' params' n n', after = some (m', params') ∧
    r.totalCost? args params = some n ∧ s.totalCost? args params' = some n' ∧ n' ≤ n ∧
    (m' = m ∧ params' = params ∨ n' < n ∨ ∃ p ∈ args.zip params', r.Opens s p.1 p.2)

/-- A look-up finds the same in `s` as in `r`, unless the conversion of an argument to what is found
opens. -/
def Unaffected {β : Type} (r s : Registry) (args : List Ty)
    (before after : Option (β × List Ty)) : Prop :=
  after = before ∨ ∃ m params, after = some (m, params) ∧ ∃ p ∈ args.zip params, r.Opens s p.1 p.2

section

variable {α β : Type} {fits : α → Prop} {params : α → List Ty} {body : α → β} {xs xs' : List α}
  {before after : Option (β × List Ty)}

theorem Grows.keeps (hg : r.Grows s) (hxs : xs <+: xs')
    (h : StableArgmin (r.Applies args fits params) (fun x => conversionCosts args (params x))
      (fun x => (body x, params x)) xs before)
    (h' : StableArgmin (s.Applies args fits params) (fun x => conversionCosts args (params x))
      (fun x => (body x, params x)) xs' after) : r.Keeps s args before after := by
  obtain ⟨ys, rfl⟩ := hxs
  intro m params' hbefore
  obtain ⟨x, x', ⟨hx, hm⟩, ⟨hx', hafter⟩, hle, hcases⟩ := h.grows h' hg.applies hbefore
  cases hm
  refine ⟨_, _, _, _, hafter, hx.totalCost?, hx'.totalCost?, hle, ?_⟩
  rcases hcases with hsame | hcheaper | hnot
  · exact .inl (Prod.mk.inj hsame)
  · exact .inr (.inl hcheaper)
  · exact .inr (.inr (hx'.exists_opens hnot))

theorem Grows.unaffected (hg : r.Grows s)
    (h : StableArgmin (r.Applies args fits params) (fun x => conversionCosts args (params x))
      (fun x => (body x, params x)) xs before)
    (h' : StableArgmin (s.Applies args fits params) (fun x => conversionCosts args (params x))
      (fun x => (body x, params x)) xs after) : r.Unaffected s args before after := by
  rcases h.same_or h' hg.applies with hsame | ⟨x, ⟨hx, hafter⟩, hnot⟩
  · exact .inl hsame
  · exact .inr ⟨_, _, hafter, hx.exists_opens hnot⟩

end

/-- What is found among one. -/
theorem stableArgmin_singleton {α γ : Type} {applies : α → Prop} {cost : α → Nat}
    {make : α → γ} {x : α} {found : Option γ} (hsome : applies x → found = some (make x))
    (hnone : ¬ applies x → found = none) :
    StableArgmin applies cost make [x] found := by
  by_cases h : applies x
  · rw [hsome h]
    refine ⟨by simp [h], fun y => ⟨?_, ?_⟩⟩
    · rintro ⟨⟩
      exact ⟨x, firstCheapest_cons.mpr (.inl ⟨rfl, h, by simp⟩), rfl⟩
    · rintro ⟨x', hx', rfl⟩
      rw [List.mem_singleton.mp hx'.spec.1]
  · rw [hnone h]
    refine ⟨by simp [h], fun y => ⟨nofun, ?_⟩⟩
    rintro ⟨x', hx', -⟩
    exact (h (List.mem_singleton.mp hx'.spec.1 ▸ hx'.spec.2.1)).elim

/-- An array has one indexer. -/
theorem findIndexer_array (r : Registry) (element : Ty) (rank : Nat) (args : List Ty) :
    StableArgmin (r.Applies args (Indexer.Fits args) Indexer.params)
      (fun i => conversionCosts args i.params)
      (fun i => (i, i.params)) [arrayIndexer (.array element rank) element rank]
      (r.findIndexer (.array element rank) args) := by
  have happlies : r.Applies args (Indexer.Fits args) Indexer.params
      (arrayIndexer (.array element rank) element rank) ↔
        args.length = rank ∧ args.all (fun a => (r.cost? a .i64).isSome) = true := by
    have hparams : (arrayIndexer (.array element rank) element rank).params =
        List.replicate rank .i64 := rfl
    simp only [Applies, Indexer.Fits, hparams, List.length_replicate, forall₂_replicate_iff,
      List.all_eq_true, cost?_isSome]
    exact ⟨fun h => h.2, fun h => ⟨h.1.symm, h⟩⟩
  refine stableArgmin_singleton (fun h => ?_) fun h => ?_
  · exact if_pos (happlies.mp h)
  · exact if_neg (mt happlies.mpr h)

theorem registered_congr {α : Type} (list : ClassEntry → List α) {key : TypeKey}
    (h : s.classes.get? key = r.classes.get? key) :
    s.registered list key = r.registered list key := by
  rw [registered, registered, h]

section

variable (hg : r.Grows s) (ty : Ty) (args : List Ty)

include hg

theorem Grows.findMethod (name : String) (generics : List Ty) :
    r.Keeps s args (r.findMethod ty name generics args) (s.findMethod ty name generics args) :=
  hg.keeps (hg.methods (.of ty)) (r.findMethod_stableArgmin ty name generics args)
    (s.findMethod_stableArgmin ty name generics args)

theorem Grows.findMethod_unaffected (h : s.classes.get? (.of ty) = r.classes.get? (.of ty))
    (name : String) (generics : List Ty) :
    r.Unaffected s args (r.findMethod ty name generics args)
      (s.findMethod ty name generics args) := by
  have hs := s.findMethod_stableArgmin ty name generics args
  rw [registered_congr _ h] at hs
  exact hg.unaffected (r.findMethod_stableArgmin ty name generics args) hs

/-- The indexers of a type, of which an array has one of its own. -/
theorem Grows.findIndexer : r.Keeps s args (r.findIndexer ty args) (s.findIndexer ty args) := by
  by_cases harray : ∃ element rank, ty = .array element rank
  · obtain ⟨element, rank, rfl⟩ := harray
    exact hg.keeps List.prefix_rfl (r.findIndexer_array element rank args)
      (s.findIndexer_array element rank args)
  · have harray (element : Ty) (rank : Nat) : ty ≠ .array element rank :=
      fun hty => harray ⟨element, rank, hty⟩
    exact hg.keeps (hg.indexers (.of ty)) (r.findIndexer_stableArgmin ty args harray)
      (s.findIndexer_stableArgmin ty args harray)

theorem Grows.findIndexer_unaffected (h : s.classes.get? (.of ty) = r.classes.get? (.of ty)) :
    r.Unaffected s args (r.findIndexer ty args) (s.findIndexer ty args) := by
  by_cases harray : ∃ element rank, ty = .array element rank
  · obtain ⟨element, rank, rfl⟩ := harray
    exact hg.unaffected (r.findIndexer_array element rank args)
      (s.findIndexer_array element rank args)
  · have harray (element : Ty) (rank : Nat) : ty ≠ .array element rank :=
      fun hty => harray ⟨element, rank, hty⟩
    have hs := s.findIndexer_stableArgmin ty args harray
    rw [registered_congr _ h] at hs
    exact hg.unaffected (r.findIndexer_stableArgmin ty args harray) hs

end

theorem findMember_congr {ty : Ty} (h : s.classes.get? (.of ty) = r.classes.get? (.of ty))
    (name : String) :
    s.findMember ty name = r.findMember ty name := by
  unfold findMember
  rw [h]

theorem resolveType_congr {space : Option String} {name : String} {args : List Ty}
    (h : s.classes.get? (.named space name args.length) =
      r.classes.get? (.named space name args.length)) :
    s.resolveType space name args = r.resolveType space name args := by
  unfold resolveType Table.contains
  rw [h]

theorem Grows.resolveType (hg : r.Grows s) {space : Option String} {name : String}
    {args : List Ty} {ty : Ty} (h : r.resolveType space name args = some ty) :
    s.resolveType space name args = some ty := by
  unfold Registry.resolveType at h ⊢
  cases hbuiltin : builtinType space name args with
  | some builtin => rwa [hbuiltin] at h
  | none =>
    rw [hbuiltin] at h
    by_cases hknown : r.classes.contains (.named space name args.length) = true
    · rw [if_pos hknown] at h
      exact (if_pos (hg.knows hknown)).trans h
    · rw [if_neg hknown] at h
      cases h

theorem Grows.cost? (hg : r.Grows s) {source target : Ty} {n : Nat}
    (h : r.cost? source target = some n) :
    s.cost? source target = some n := by
  rw [cost?_eq] at h ⊢
  obtain ⟨c, hc, rfl⟩ := Option.map_eq_some_iff.mp h
  obtain ⟨c', hc'⟩ := Option.isSome_iff_exists.mp (hg.converts (Option.isSome_of_eq_some hc))
  rw [hc', Option.map_some]

/-- **Growth never breaks look-ups.** Whatever a registry holds, and whatever is declared further: a
name that is resolved stays so, types that convert go on to convert at the same cost, and where a
method or an indexer was found, one is found at no higher cost. A type that no declaration names has
the members it had, and the methods and indexers found for it are the same, unless the conversion of
an argument opens. It opens only between types that are declared to convert; a conversion that is
not declared again is the same. -/
theorem declareAll_keeps_lookups (r : Registry) (ds : List Declaration) :
    let s := r.declareAll ds
    (∀ space name args ty, r.resolveType space name args = some ty →
      s.resolveType space name args = some ty) ∧
    (∀ source target, (r.implicitConversion source target).isSome →
      (s.implicitConversion source target).isSome) ∧
    (∀ source target n, r.cost? source target = some n → s.cost? source target = some n) ∧
    (∀ ty name generics args,
      r.Keeps s args (r.findMethod ty name generics args) (s.findMethod ty name generics args)) ∧
    (∀ ty args, r.Keeps s args (r.findIndexer ty args) (s.findIndexer ty args)) ∧
    (∀ ty, TypeKey.of ty ∉ ds.filterMap Declaration.key? →
      (∀ name, s.findMember ty name = r.findMember ty name) ∧
      (∀ name generics args,
        r.Unaffected s args (r.findMethod ty name generics args)
        (s.findMethod ty name generics args)) ∧
      ∀ args, r.Unaffected s args (r.findIndexer ty args) (s.findIndexer ty args)) ∧
    (∀ space name args, TypeKey.named space name args.length ∉ ds.filterMap Declaration.key? →
      s.resolveType space name args = r.resolveType space name args) ∧
    (∀ source target, (source, target) ∉ ds.filterMap Declaration.pair? →
      ¬ r.Opens s source target ∧
      s.implicitConversion source target = r.implicitConversion source target) := by
  intro s
  have hg : r.Grows s := r.declareAll_grows ds
  refine ⟨fun _ _ _ _ => hg.resolveType, fun _ _ => hg.converts, fun _ _ _ => hg.cost?,
    fun ty name generics args => hg.findMethod ty args name generics,
    fun ty args => hg.findIndexer ty args, fun ty hkey => ?_,
    fun _ _ _ hkey => resolveType_congr (r.declareAll_class hkey), fun source target hpair => ?_⟩
  · have hclass := r.declareAll_class hkey
    exact ⟨findMember_congr hclass,
      fun name generics args => hg.findMethod_unaffected ty args hclass name generics,
      fun args => hg.findIndexer_unaffected ty args hclass⟩
  · exact ⟨fun hopens => hpair (mem_of_opens hopens),
      implicitConversion_congr (r.declareAll_conversion hpair)⟩

/-- A class with one method, which takes any value. -/
def labelDeclaration : Declaration :=
  .extend (.named none "Label" []) [.method "Of" 0 [.object] .string fun _ _ => .ok (.str "object")]

/-- The same method for `double`, and a conversion of strings. -/
def labelGrowth : List Declaration :=
  [.extend (.named none "Label" []) [.method "Of" 0 [.f64] .string fun _ _ => .ok (.str "double")],
    .conversion .string .f64 fun _ => .ok .null]

/-- A string is first taken as an object, at the cost of 64; then at a cost of 64 at most. The
members of another class stay. -/
theorem declareAll_keeps_lookups_label :
    let r := (standard []).declareAll [labelDeclaration]
    let s := r.declareAll labelGrowth
    let ty : Ty := .named none "Label" []
    ((∃ m, r.findMethod ty "Of" [] [.string] = some (m, [.object])) ∧
        r.totalCost? [.string] [.object] = some 64 ∧
        ∃ m params n, s.findMethod ty "Of" [] [.string] = some (m, params) ∧
          s.totalCost? [.string] params = some n ∧ n ≤ 64) ∧
      TypeKey.of mathType ∉ labelGrowth.filterMap Declaration.key? ∧
      s.findMember mathType "PI" = r.findMember mathType "PI" := by
  intro r s ty
  have hfound : ∃ m, r.findMethod ty "Of" [] [.string] = some (m, [.object]) := ⟨_, rfl⟩
  have hcost : r.totalCost? [.string] [.object] = some 64 := rfl
  have hmath : TypeKey.of mathType ∉ labelGrowth.filterMap Declaration.key? := by decide
  obtain ⟨-, -, -, hmethods, -, hothers, -⟩ := declareAll_keeps_lookups r labelGrowth
  obtain ⟨m, hm⟩ := hfound
  obtain ⟨m', params, n, n', hm', hn, hn', hle, -⟩ := hmethods ty "Of" [] [.string] m [.object] hm
  rw [hcost] at hn
  cases hn
  exact ⟨⟨⟨m, hm⟩, hcost, m', params, n', hm', hn', hle⟩, hmath, (hothers mathType hmath).1 "PI"⟩

end Registry

end Formula
