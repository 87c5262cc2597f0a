import Formula.Grid
import Mathlib.Algebra.BigOperators.Group.List.Basic
import Mathlib.Data.List.Forall2
import Mathlib.Tactic.Ring

/-!
# Positions in rectangular arrays

The indices of an item count in row-major order (`rowMajor`): each stands for all items of the
dimensions behind it. Indices within the extents (`InRange`) count from zero up to the product of
the extents, each number once (`rowMajor_lt`, `rowMajor_injective`, `exists_rowMajor`).

An array computes its volume and its positions with machine words. A shape whose products leave them
traps and never becomes an array (`Grid.volume_eq_ok_iff`), and the products bound every position.
So all arrays are indexed as they should be: `Grid.built_indexed`.
-/

namespace Formula

/-- One index for each extent, and each within its own. -/
def InRange : List ℤ → List ℕ → Prop := List.Forall₂ fun i d => 0 ≤ i ∧ i < d

/-- The position of indices when the last one runs fastest. -/
def rowMajor : List ℤ → List ℕ → ℕ
  | i :: is, _ :: ds => i.toNat * ds.prod + rowMajor is ds
  | _, _ => 0

/-- The first index that is not within its extent. -/
def FirstOutside (is : List ℤ) (ds : List ℕ) (index : ℤ) (dim : ℕ) : Prop :=
  ∃ before after ds₁ ds₂, is = before ++ index :: after ∧ ds = ds₁ ++ dim :: ds₂ ∧
    InRange before ds₁ ∧ ¬ (0 ≤ index ∧ index < dim)

/-! ## Counting in row-major order -/

variable {is js : List ℤ} {ds : List ℕ}

theorem rowMajor_lt (h : InRange is ds) : rowMajor is ds < ds.prod := by
  induction h with
  | nil => exact Nat.one_pos
  | @cons i d is ds hi _ ih =>
    have hle : (i.toNat + 1) * ds.prod ≤ d * ds.prod := Nat.mul_le_mul_right _ (by omega)
    rw [rowMajor, List.prod_cons]
    rw [Nat.add_mul, Nat.one_mul] at hle
    omega

theorem rowMajor_injective (hi : InRange is ds) (hj : InRange js ds)
    (h : rowMajor is ds = rowMajor js ds) :
    is = js := by
  induction hi generalizing js with
  | nil =>
    cases hj
    rfl
  | @cons i d is ds hid his ih =>
    obtain ⟨j, js, hjd, hjs, rfl⟩ := List.forall₂_cons_right_iff.mp hj
    have hlt := rowMajor_lt his
    have hlt' := rowMajor_lt hjs
    have hpos : 0 < ds.prod := by omega
    simp only [rowMajor] at h
    have hquotient := congrArg (· / ds.prod) h
    simp only [Nat.mul_comm _ ds.prod, Nat.mul_add_div hpos, Nat.div_eq_of_lt hlt,
      Nat.div_eq_of_lt hlt', Nat.add_zero] at hquotient
    obtain rfl : i = j := by omega
    rw [ih hjs (Nat.add_left_cancel h)]

/-- Every number below the product of the extents is the position of some indices. -/
theorem exists_rowMajor {p : ℕ} (h : p < ds.prod) : ∃ is, InRange is ds ∧ rowMajor is ds = p := by
  induction ds generalizing p with
  | nil =>
    rw [List.prod_nil, Nat.lt_one_iff] at h
    exact ⟨[], .nil, h.symm⟩
  | cons d ds ih =>
    rw [List.prod_cons] at h
    have hpos : 0 < ds.prod := Nat.pos_of_ne_zero fun h0 => by simp [h0] at h
    obtain ⟨is, his, hrest⟩ := ih (Nat.mod_lt p hpos)
    have hfirst : p / ds.prod < d := (Nat.div_lt_iff_lt_mul hpos).mpr h
    refine ⟨(p / ds.prod : ℕ) :: is, .cons ⟨Int.natCast_nonneg _, Int.ofNat_lt.mpr hfirst⟩ his, ?_⟩
    rw [rowMajor, hrest, Int.toNat_natCast, Nat.mul_comm, Nat.div_add_mod]

/-- Each index in range is below the product of the extents. -/
theorem InRange.lt_prod (h : InRange is ds) : ∀ i ∈ is, i < ds.prod := by
  induction h with
  | nil => simp
  | @cons i d is ds hi his ih =>
    have hrest : 0 < ds.prod := Nat.zero_lt_of_lt (rowMajor_lt his)
    have hd : 0 < d := by omega
    rw [List.prod_cons]
    refine List.forall_mem_cons.mpr ⟨?_, fun j hj => ?_⟩
    · exact lt_of_lt_of_le hi.2 (Int.ofNat_le.mpr (Nat.le_mul_of_pos_right d hrest))
    · exact lt_of_lt_of_le (ih j hj) (Int.ofNat_le.mpr (Nat.le_mul_of_pos_left ds.prod hd))

/-- As many indices as extents are in range, or there is a first one that is not. -/
theorem inRange_or_firstOutside (h : is.length = ds.length) :
    InRange is ds ∨ ∃ index dim, FirstOutside is ds index dim := by
  induction is generalizing ds with
  | nil =>
    cases List.length_eq_zero_iff.mp h.symm
    exact .inl .nil
  | cons i is ih =>
    cases ds with
    | nil => cases h
    | cons d ds =>
      by_cases hi : 0 ≤ i ∧ i < d
      · refine (ih (Nat.succ.inj h)).imp (.cons hi) ?_
        rintro ⟨index, dim, before, after, ds₁, ds₂, rfl, rfl, hbefore, houtside⟩
        exact ⟨index, dim, i :: before, after, d :: ds₁, ds₂, rfl, rfl, .cons hi hbefore, houtside⟩
      · exact .inr ⟨i, d, [], is, [], ds, rfl, rfl, .nil, hi⟩

namespace Grid

variable {α : Type} {g : Grid α}

/-! ## What an array computes -/

theorem word_of_lt {n : ℕ} (trap : Trap) (h : n < wordCount) : word trap n = .ok n := if_pos h

/-- The products of the first extents are machine words. -/
def Counted (dims : List ℕ) : Prop := ∀ front, front <+: dims → front.prod < wordCount

/-- Indices in range lead to their position, which is below the product of their extents. -/
theorem locate_append {before : List ℤ} {ds₁ : List ℕ} (h : InRange before ds₁) {n : ℕ}
    (hn : (n + 1) * ds₁.prod ≤ wordCount) (is : List ℤ) (ds : List ℕ) :
    locate n (before ++ is) (ds₁ ++ ds) = locate (n * ds₁.prod + rowMajor before ds₁) is ds := by
  induction h generalizing n with
  | nil => simp [rowMajor]
  | @cons i d before ds₁ hi hrest ih =>
    have hnot : ¬ (i < 0 ∨ d ≤ i.toNat) := by omega
    have hpos : 0 < ds₁.prod := Nat.zero_lt_of_lt (rowMajor_lt hrest)
    have hstep : n * d + i.toNat + 1 ≤ (n + 1) * d := by
      rw [Nat.add_mul, Nat.one_mul]
      omega
    have hnext : (n * d + i.toNat + 1) * ds₁.prod ≤ wordCount := by
      refine (Nat.mul_le_mul_right _ hstep).trans ?_
      rwa [Nat.mul_assoc, ← List.prod_cons]
    have hword : n * d + i.toNat < wordCount := (Nat.le_mul_of_pos_right _ hpos).trans hnext
    simp only [List.cons_append, locate, if_neg hnot, word_of_lt _ hword]
    rw [ih hnext, List.prod_cons, rowMajor]
    congr 1
    ring

/-- The first index that is outside stops the walk. -/
theorem locate_of_firstOutside {index : ℤ} {dim : ℕ} (h : FirstOutside is ds index dim)
    (hds : Counted ds) : locate 0 is ds = .error (.indexOutOfRange index dim) := by
  obtain ⟨before, after, ds₁, ds₂, rfl, rfl, hbefore, houtside⟩ := h
  have hle : (0 + 1) * ds₁.prod ≤ wordCount := by
    rw [Nat.zero_add, Nat.one_mul]
    exact (hds ds₁ (List.prefix_append _ _)).le
  have hstop : index < 0 ∨ dim ≤ index.toNat := by omega
  rw [locate_append hbefore hle, locate, if_pos hstop]

/-- The product of the extents is found if all products on the way to it are machine words. -/
theorem volume_eq_ok_iff {dims : List ℕ} {n : ℕ} :
    volume dims = .ok n ↔ n = dims.prod ∧ Counted dims := by
  have hfold (m : ℕ) (hm : m < wordCount) :
      dims.foldlM (fun n d => word .itemCount (n * d)) m = .ok n ↔
      n = m * dims.prod ∧ ∀ front, front <+: dims → m * front.prod < wordCount := by
    induction dims generalizing m with
    | nil =>
      simp only [List.foldlM_nil, List.prod_nil, Nat.mul_one, List.prefix_nil, forall_eq]
      exact ⟨fun h => ⟨(Except.ok.inj h).symm, hm⟩, fun h => h.1 ▸ rfl⟩
    | cons d dims ih =>
      have hsplit : (∀ front, front <+: d :: dims → m * front.prod < wordCount) ↔
          m * d < wordCount ∧ ∀ front, front <+: dims → m * d * front.prod < wordCount := by
        constructor
        · intro h
          refine ⟨by simpa using h [d] (by simp), fun front hfront => ?_⟩
          rw [Nat.mul_assoc, ← List.prod_cons]
          exact h (d :: front) ((List.prefix_cons_inj d).mpr hfront)
        · rintro ⟨-, h⟩ (_ | ⟨x, front⟩) hfront
          · simpa using hm
          · obtain ⟨rfl, htail⟩ := List.cons_prefix_cons.mp hfront
            rw [List.prod_cons, ← Nat.mul_assoc]
            exact h front htail
      rw [List.foldlM_cons, hsplit, List.prod_cons, ← Nat.mul_assoc]
      by_cases hd : m * d < wordCount
      · rw [word_of_lt _ hd]
        exact (ih (m * d) hd).trans (and_congr_right fun _ => (and_iff_right hd).symm)
      · rw [word, if_neg hd]
        exact ⟨nofun, fun h => absurd h.2.1 hd⟩
  have hone := hfold 1 (by decide)
  simp only [Nat.one_mul] at hone
  exact hone

private theorem volume_error {dims : List ℕ} {trap : Trap} (h : volume dims = .error trap) :
    trap = .itemCount := by
  unfold volume at h
  generalize (1 : ℕ) = m at h
  induction dims generalizing m with
  | nil => cases h
  | cons d dims ih =>
    rw [List.foldlM_cons, word] at h
    split at h
    · exact ih _ h
    · cases h
      rfl

/-- A shape that is not counted traps. -/
theorem volume_of_not_counted {dims : List ℕ} (h : ¬ Counted dims) :
    volume dims = .error .itemCount := by
  cases hvolume : volume dims with
  | ok n => exact absurd (volume_eq_ok_iff.mp hvolume).2 h
  | error trap => rw [volume_error hvolume]

/-- An array of one dimension, or of a shape that was accepted for its items. The number of items is
a machine word. -/
def Built (g : Grid α) : Prop :=
  g = ofList g.items ∧ g.length < wordCount ∨ ofDims? g.dims g.items = .ok (some g)

/-- What becomes of a shape: it traps if it is not counted, and is accepted if it has dimensions and
is the shape of as many items. -/
theorem ofDims?_eq (dims : List ℕ) (items : List α) :
    (Counted dims → ofDims? dims items =
      .ok (if dims ≠ [] ∧ dims.prod = items.length then some ⟨dims, items⟩ else none)) ∧
    (¬ Counted dims → ofDims? dims items = .error .itemCount) := by
  cases dims with
  | nil =>
    refine ⟨fun _ => rfl, fun h => absurd (fun front hfront => ?_) h⟩
    rw [List.prefix_nil.mp hfront]
    decide
  | cons d dims =>
    refine ⟨fun h => ?_, fun h => ?_⟩
    · have hvolume := volume_eq_ok_iff.mpr ⟨rfl, h⟩
      simp [ofDims?, hvolume, Except.map]
    · simp [ofDims?, volume_of_not_counted h, Except.map]

/-- The number of items is the product of the extents, and all products on the way to it are
words. -/
theorem Built.counted (h : g.Built) : g.dims.prod = g.length ∧ Counted g.dims := by
  rcases h with ⟨hlist, hlength⟩ | hdims
  · rw [hlist]
    refine ⟨List.prod_singleton, fun front hfront => ?_⟩
    rcases front with _ | ⟨x, front⟩
    · decide
    · obtain ⟨rfl, hnil⟩ := List.cons_prefix_cons.mp hfront
      rw [List.prefix_nil.mp hnil, List.prod_singleton]
      exact hlength
  · by_cases hcounted : Counted g.dims
    · rw [(ofDims?_eq g.dims g.items).1 hcounted] at hdims
      split at hdims
      · rename_i haccepted
        exact ⟨haccepted.2, hcounted⟩
      · cases hdims
    · rw [(ofDims?_eq g.dims g.items).2 hcounted] at hdims
      cases hdims

/-! ## Indexing -/

/-- What does not name an item of the shape is refused: the wrong number of indices, and otherwise
the first index that is outside its extent. -/
structure Refuses (g : Grid α) : Prop where
  count : ∀ is : List ℤ, is.length ≠ g.rank →
    g.get is =
    .error (.invalidValue (toString g.rank ++ " indices") (toString is.length ++ " indices"))
  outside : ∀ is index dim, is.length = g.rank → FirstOutside is g.dims index dim →
    g.get is = .error (.indexOutOfRange index dim)

theorem Built.refuses (hg : g.Built) : g.Refuses where
  count is h := by rw [get, position, if_pos h]
  outside is index dim hlength h := by
    rw [get, position, if_neg (not_not.mpr hlength), locate_of_firstOutside h hg.counted.2]

/-- **Indexing as it should be**: an item is found exactly for the indices in range, at their
row-major position; different indices have different positions, and every position has indices; all
other indices are refused; and none traps, so that none leads outside the items. -/
structure Indexed (g : Grid α) : Prop where
  found_iff : ∀ is, (∃ a, g.get is = .ok a) ↔ InRange is g.dims
  rowMajor : ∀ is, InRange is g.dims → g.position is = .ok (rowMajor is g.dims) ∧
    ∃ a, g.items[rowMajor is g.dims]? = some a ∧ g.get is = .ok a
  injective : ∀ is js, InRange is g.dims → InRange js g.dims →
    g.position is = g.position js → is = js
  covers : ∀ p < g.length, ∃ is, InRange is g.dims ∧ g.position is = .ok p ∧ ∀ i ∈ is, i < g.length
  refuses : g.Refuses
  inside : ∀ is trap, g.get is ≠ .error (.trapped trap)

/-- What is found has indices in range. -/
theorem Refuses.inRange {a : α} (hg : g.Refuses) (h : g.get is = .ok a) : InRange is g.dims := by
  by_cases hlength : is.length = g.rank
  · rcases inRange_or_firstOutside hlength with hrange | ⟨index, dim, houtside⟩
    · exact hrange
    · rw [hg.outside is index dim hlength houtside] at h
      cases h
  · rw [hg.count is hlength] at h
    cases h

theorem Built.position_eq (hg : g.Built) (h : InRange is g.dims) :
    g.position is = .ok (rowMajor is g.dims) := by
  have hlength : is.length = g.rank := List.Forall₂.length_eq h
  have hle : (0 + 1) * g.dims.prod ≤ wordCount := by
    rw [Nat.zero_add, Nat.one_mul]
    exact (hg.counted.2 g.dims (List.prefix_refl _)).le
  have hlocate := locate_append h hle [] []
  rw [List.append_nil, List.append_nil, Nat.zero_mul, Nat.zero_add] at hlocate
  rw [position, if_neg (not_not.mpr hlength), hlocate]
  rfl

theorem Built.get_eq (hg : g.Built) (h : InRange is g.dims) :
    ∃ a, g.items[rowMajor is g.dims]? = some a ∧ g.get is = .ok a := by
  have hlt : rowMajor is g.dims < g.items.length := (rowMajor_lt h).trans_eq hg.counted.1
  refine ⟨g.items[rowMajor is g.dims], List.getElem?_eq_getElem hlt, ?_⟩
  rw [get, hg.position_eq h]
  simp only [List.getElem?_eq_getElem hlt]

theorem Built.ne_trapped (hg : g.Built) (is : List ℤ) (trap : Trap) :
    g.get is ≠ .error (.trapped trap) := by
  intro herror
  by_cases hlength : is.length = g.rank
  · rcases inRange_or_firstOutside hlength with hrange | ⟨index, dim, houtside⟩
    · obtain ⟨a, -, ha⟩ := hg.get_eq hrange
      cases ha.symm.trans herror
    · cases (hg.refuses.outside is index dim hlength houtside).symm.trans herror
  · cases (hg.refuses.count is hlength).symm.trans herror

/-- **Arrays are indexed in row-major order.** A shape that is asked for traps exactly if a product
of its first extents is no machine word, and else it is accepted exactly if it has dimensions and
the product of all is the number of items. Every array, of one dimension or of a shape that was
accepted, is indexed as it should be. -/
theorem built_indexed :
    (∀ (dims : List ℕ) (items : List α),
      (ofDims? dims items = .error .itemCount ↔ ∃ front, front <+: dims ∧ wordCount ≤ front.prod) ∧
      ∀ g, ofDims? dims items = .ok (some g) ↔
        Counted dims ∧ dims ≠ [] ∧ dims.prod = items.length ∧ g = ⟨dims, items⟩) ∧
    ∀ g : Grid α, g.Built → g.Indexed := by
  refine ⟨fun dims items => ?_, fun g hg => ?_⟩
  · have hcounted : (∃ front, front <+: dims ∧ wordCount ≤ front.prod) ↔ ¬ Counted dims := by
      simp [Counted]
    obtain ⟨haccepted, htrapped⟩ := ofDims?_eq dims items
    rw [hcounted]
    by_cases h : Counted dims
    · rw [haccepted h]
      refine ⟨⟨nofun, fun hnot => absurd h hnot⟩, fun g => ?_⟩
      by_cases hshape : dims ≠ [] ∧ dims.prod = items.length
      · simp [hshape, h, eq_comm]
      · simpa [hshape] using fun _ hne hprod => absurd ⟨hne, hprod⟩ hshape
    · rw [htrapped h]
      exact ⟨⟨fun _ => h, fun _ => rfl⟩, fun g => ⟨nofun, fun hg => absurd hg.1 h⟩⟩
  · refine ⟨fun is => ⟨fun ⟨a, ha⟩ => hg.refuses.inRange ha, fun hrange => ?_⟩,
      fun is hrange => ⟨hg.position_eq hrange, hg.get_eq hrange⟩, ?_, ?_, hg.refuses, hg.ne_trapped⟩
    · obtain ⟨a, -, ha⟩ := hg.get_eq hrange
      exact ⟨a, ha⟩
    · intro is js his hjs hsame
      rw [hg.position_eq his, hg.position_eq hjs] at hsame
      exact rowMajor_injective his hjs (Except.ok.inj hsame)
    · intro p hp
      obtain ⟨is, hrange, rfl⟩ := exists_rowMajor (hp.trans_eq hg.counted.1.symm)
      exact ⟨is, hrange, hg.position_eq hrange,
        fun i hi => hg.counted.1 ▸ InRange.lt_prod hrange i hi⟩

/-- Two rows of three items; and a shape of seven rows, the number of whose items is one more than a
multiple of `2 ^ 64` and is not taken for one. -/
theorem built_indexed_two_rows :
    let g : Grid ℕ := ⟨[2, 3], [0, 1, 2, 10, 11, 12]⟩
    g.Built ∧ g.Indexed ∧ g.get [1, 2] = .ok 12 ∧
      ofDims? [7, 7905747460161236407] [5] = .error .itemCount := by
  intro g
  have hbuilt : g.Built := .inr rfl
  have htrapped := (built_indexed.1 [7, 7905747460161236407] [5]).1.mpr
    ⟨[7, 7905747460161236407], List.prefix_refl _, by decide⟩
  exact ⟨hbuilt, built_indexed.2 g hbuilt, rfl, htrapped⟩

end Grid

end Formula
