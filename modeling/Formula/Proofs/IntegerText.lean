import Formula.Node.Render
import Formula.Proofs.DecimalRange
import Formula.Proofs.FloatConversion
import Formula.Proofs.IntegerCast
import Formula.Proofs.Tokens

/-!
# The text of an integer

An integer is written as the shortest decimal that reads back as the nearest `double`. Where a unit
in the last place of that `double` is at most one, no other integer reads back as it, so the decimal
is the integer itself: its text is a numeral that spells it (`isNumeral_render`).
-/

namespace Formula

/-! ## Digits -/

private theorem spelledIn_ten {digits : List Char} (h : ∀ x ∈ digits, x.isDigit = true) :
    spelledIn 10 digits = Nat.ofDigitChars 10 digits 0 := by
  rw [← digitsValue_eq_spelledIn, digitsValue, Nat.ofDigitChars]
  refine List.foldl_ext _ _ 0 fun acc x hx => ?_
  rw [digitValue, if_pos (h x hx), Nat.mul_comm]

/-- Digits with zeros behind them, as a number with an exponent is written. -/
theorem isNumeral_positional (c : ℕ) {k : ℤ} (hk : 0 ≤ k) :
    IsNumeral (positional c k).toList (c * 10 ^ k.toNat) := by
  have hdigits : ∀ x ∈ Nat.toDigits 10 c ++ List.replicate k.toNat '0', x.isDigit = true := by
    intro x hx
    rcases List.mem_append.mp hx with hx | hx
    · exact Nat.isDigit_of_mem_toDigits (by decide) (by decide) hx
    · rw [List.eq_of_mem_replicate hx]
      rfl
  have hvalue : spelledIn 10 (Nat.toDigits 10 c ++ List.replicate k.toNat '0') =
      c * 10 ^ k.toNat := by
    rw [spelledIn_ten hdigits, Nat.ofDigitChars_append, Nat.ofDigitChars_ten_toDigits,
      Nat.ofDigitChars_replicate_zero, Nat.mul_comm]
  rw [positional, if_pos hk, String.toList_ofList, ← hvalue]
  exact .decimal (by simp) hdigits

/-! ## Shortest decimals -/

/-- A search that has an answer for `top` finds one that is not behind it. -/
theorem exists_findSome?_range {α : Type} (g : ℕ → Option α) {top count : ℕ} (htop : top < count)
    (h : g top ≠ none) :
    ∃ i a, i ≤ top ∧ g i = some a ∧ (List.range count).findSome? g = some a := by
  cases hfound : (List.range count).findSome? g with
  | none => exact absurd (List.findSome?_eq_none_iff.mp hfound top (List.mem_range.mpr htop)) h
  | some a =>
    obtain ⟨before, i, after, hrange, hi, hbefore⟩ := List.findSome?_eq_some_iff.mp hfound
    refine ⟨i, a, ?_, hi, rfl⟩
    by_contra hlt
    have hsorted := hrange ▸ List.pairwise_lt_range (n := count)
    have hmem : top ∈ before ++ i :: after := hrange ▸ List.mem_range.mpr htop
    rcases List.mem_append.mp hmem with hmem | hmem
    · exact h (hbefore top hmem)
    · have hbehind := (List.pairwise_cons.mp (List.pairwise_append.mp hsorted).2.1).1 top
      rcases List.mem_cons.mp hmem with rfl | hmem
      · exact hlt (Nat.le_refl _)
      · exact hlt (hbehind hmem).le

namespace FloatFormat

variable {f : FloatFormat} {n m c : ℕ} {e k : ℤ}

/-- Whether so many quarters of the last place of `m * 2 ^ e` read back as that float. -/
def readsBack (f : FloatFormat) (m : ℕ) (e : ℤ) (quarters : ℕ) : Bool :=
  let low := if m = f.half ∧ f.minExponent < e then 4 * m - 1 else 4 * m - 2
  if m % 2 = 0 then low ≤ quarters && quarters ≤ 4 * m + 2
    else low < quarters && quarters < 4 * m + 2

private theorem readsBack_self (hm : 0 < m) : f.readsBack m e (4 * m) = true := by
  unfold readsBack
  simp only
  split <;> split <;> simp <;> omega

private theorem readsBack_within {x : ℕ} (h : f.readsBack m e x = true) :
    4 * m - 2 ≤ x ∧ x ≤ 4 * m + 2 := by
  unfold readsBack at h
  simp only at h
  split at h <;> split at h <;> simp at h <;> omega

/-- With an exponent that is not positive, and on a grid of integers, everything is a number of
places. -/
theorem gridPoint_places (he : e ≤ 0) (hk : 0 ≤ k) {u : ℕ}
    (hu : u = 10 ^ k.toNat * 2 ^ (-e).toNat) :
    f.gridPoint m e k =
      if f.readsBack m e (4 * (m / u * u)) then
        if f.readsBack m e (4 * ((m / u + 1) * u)) then
          some (if 4 * m - 4 * (m / u * u) < 4 * ((m / u + 1) * u) - 4 * m then m / u
            else m / u + 1)
        else some (m / u)
      else if f.readsBack m e (4 * ((m / u + 1) * u)) then some (m / u + 1) else none := by
  have hunit : 2 ^ (2 + (-e).toNat) * 10 ^ k.toNat = 4 * u := by
    rw [Nat.pow_add, hu]
    ring
  have hscale : ∀ c, c * (4 * u) = 4 * (c * u) := fun c => by ring
  have hbelow : 4 * m / (4 * u) = m / u := Nat.mul_div_mul_left m u (by decide)
  cases hdown : f.readsBack m e (4 * (m / u * u)) <;>
    cases hup : f.readsBack m e (4 * ((m / u + 1) * u))
  all_goals
    simp only [readsBack] at hdown hup
    simp only [gridPoint, Nat.pow_eq, show (e - 2).toNat = 0 by omega, show (-k).toNat = 0 by omega,
      show (2 - e).toNat = 2 + (-e).toNat by omega, pow_zero, Nat.mul_one, hunit, hscale,
      hbelow, hdown, hup, if_true, Bool.false_eq_true, if_false]

/-- A point of the grid reads back. -/
theorem readsBack_of_gridPoint (he : e ≤ 0) (hk : 0 ≤ k) (h : f.gridPoint m e k = some c) :
    f.readsBack m e (4 * (c * (10 ^ k.toNat * 2 ^ (-e).toNat))) = true := by
  rw [gridPoint_places he hk rfl] at h
  split at h
  · rename_i hbelow
    split at h
    · rename_i habove
      cases h
      split
      · exact hbelow
      · exact habove
    · cases h
      exact hbelow
  · split at h
    · rename_i habove
      cases h
      exact habove
    · cases h

/-- Of the multiples of a unit only one is closer to it than half a unit. -/
theorem eq_of_within {u x : ℕ} (hu : 0 < u) (hlow : 4 * (n * u) - 2 ≤ 4 * (x * u))
    (hhigh : 4 * (x * u) ≤ 4 * (n * u) + 2) : x = n := by
  rcases Nat.lt_trichotomy x n with hlt | heq | hlt
  · have := Nat.mul_le_mul_right u hlt
    rw [Nat.succ_mul] at this
    omega
  · exact heq
  · have := Nat.mul_le_mul_right u hlt
    rw [Nat.succ_mul] at this
    omega

section

variable (he : e ≤ 0) (hm : m = n * 2 ^ (-e).toNat)

include he hm

/-- The only integer that reads back as an integer is that integer. -/
theorem gridPoint_eq (hk : 0 ≤ k) (h : f.gridPoint m e k = some c) : c * 10 ^ k.toNat = n := by
  obtain ⟨hlow, hhigh⟩ := readsBack_within (readsBack_of_gridPoint he hk h)
  rw [hm, ← Nat.mul_assoc c] at hlow hhigh
  exact eq_of_within (Nat.two_pow_pos _) hlow hhigh

private theorem gridPoint_zero (hn : n ≠ 0) : (f.gridPoint m e 0).isSome = true := by
  have hpos : 0 < m := by
    rw [hm]
    exact Nat.mul_pos (Nat.pos_of_ne_zero hn) (Nat.two_pow_pos _)
  have hself := readsBack_self (f := f) (e := e) hpos
  have hexact : m / 2 ^ (-e).toNat * 2 ^ (-e).toNat = m := by
    rw [hm, Nat.mul_div_cancel _ (Nat.two_pow_pos _)]
  rw [gridPoint_places he (Int.le_refl 0) (Nat.one_mul _).symm, hexact, hself]
  cases f.readsBack m e (4 * ((m / 2 ^ (-e).toNat + 1) * 2 ^ (-e).toNat)) <;> rfl

/-- The grid of ones is among those that are tried, so no finer one is needed. -/
theorem shortest_eq (hn : n ≠ 0) (hlimit : m < 10 ^ 22) :
    0 ≤ (f.shortest m e).2 ∧ (f.shortest m e).1 * 10 ^ (f.shortest m e).2.toNat = n := by
  have hpow : 2 ^ (-e).toNat ≤ m := by
    rw [hm]
    exact Nat.le_mul_of_pos_left _ (Nat.pos_of_ne_zero hn)
  have hcount : digitCount (2 ^ (-e).toNat) ≤ digitCount m :=
    (Nat.length_toDigits_le_iff (by decide) (digitCount_pos m)).mpr
      (hpow.trans_lt (lt_pow_digitCount m))
  have hdigits : digitCount m ≤ 22 :=
    (Nat.length_toDigits_le_iff (by decide) (by decide)).mpr hlimit
  have hpos := digitCount_pos (2 ^ (-e).toNat)
  obtain ⟨top, htop⟩ : ∃ top : ℕ, (top : ℤ) = digitCount m - digitCount (2 ^ (-e).toNat) + 1 :=
    ⟨digitCount m - digitCount (2 ^ (-e).toNat) + 1, by omega⟩
  unfold shortest
  simp only [Nat.pow_eq, show e.toNat = 0 by omega, pow_zero, Nat.mul_one, ← htop]
  have hones : ((f.gridPoint m e (top - top)).map (·, (top : ℤ) - top)) ≠ none := by
    have hsome := gridPoint_zero (f := f) he hm hn
    rw [Int.sub_self, ne_eq, Option.map_eq_none_iff]
    exact Option.isSome_iff_ne_none.mp hsome
  obtain ⟨i, found, hle, hi, hfound⟩ := exists_findSome?_range
    (fun i : ℕ => (f.gridPoint m e (top - i)).map (·, (top : ℤ) - i)) (by omega : top < 24) hones
  obtain ⟨c, hc, rfl⟩ := Option.map_eq_some_iff.mp hi
  have hk : (0 : ℤ) ≤ top - i := by omega
  rw [hfound]
  exact ⟨hk, gridPoint_eq he hm hk hc⟩

end

/-- A finite float has a leading one, or the least exponent. -/
theorem decode_leading {bits : ℕ} {negative : Bool} (h : f.decode bits = .finite negative m e) :
    f.half ≤ m ∨ e = f.minExponent := by
  unfold decode at h
  simp only at h
  split at h
  · cases h
  · split at h
    · cases h
    · split at h
      · cases h
        exact .inr rfl
      · cases h
        exact .inl (Nat.le_add_right _ _)

end FloatFormat

/-- The `double` of a small integer is that integer, with an exponent that is not positive. -/
theorem Binary64.decode_ofNat {n : ℕ} (h : n < 2 ^ 31) :
    ∃ m e, decode (ofInt n) = .finite false m e ∧ m < 2 ^ 53 ∧ e ≤ 0 ∧ m = n * 2 ^ (-e).toNat := by
  have hholds : FloatFormat.double.Holds (Int.natAbs n) :=
    ⟨n, 0, h.trans (by decide), by decide, by decide, by simp⟩
  have hvalue := toRat?_ofInt hholds
  cases hdecode : decode (ofInt n) with
  | infinite negative => cases hdecode ▸ hvalue
  | nan => cases hdecode ▸ hvalue
  | finite negative m e =>
    have hsign : negative = false := by
      have hreading : FloatFormat.double.reading false (FloatFormat.double.nearest n 1) =
          .finite negative m e := by
        rw [← hdecode, ofInt, decode_ofPattern (FloatFormat.signed_lt _ (by decide)),
          FloatFormat.signed,
          FloatFormat.decode_withSign _ (FloatFormat.nearest_lt_signBit (by decide))]
        rw [decide_eq_false (by omega), Int.natAbs_natCast]
      unfold FloatFormat.reading at hreading
      split at hreading
      · cases hreading
      · split at hreading
        · cases hreading
        · split at hreading <;> cases hreading <;> rfl
    subst hsign
    have hmantissa : (m : ℚ) * 2 ^ e = n := by
      rw [hdecode, FloatValue.toRat?] at hvalue
      simpa using hvalue
    -- the leading bit of `m` has place 52, and `n` has none above 30
    have he : e ≤ 0 := by
      rcases FloatFormat.decode_leading hdecode with hleading | rfl
      · have htop := lt_of_two_zpow_le (q := n) (p := 31) (l := 52 + e) (e := 0) h (by
          rw [zpow_zero, mul_one, ← hmantissa, zpow_add₀ (by norm_num)]
          exact mul_le_mul_of_nonneg_right (by exact_mod_cast hleading) (by positivity))
        omega
      · decide
    refine ⟨m, e, rfl, (FloatFormat.decode_bounds (by decide) (by decide) hdecode).1, he, ?_⟩
    have hpos : ((2 ^ (-e).toNat : ℕ) : ℚ) ≠ 0 := by positivity
    rw [two_zpow_eq, show e.toNat = 0 by omega, pow_zero, Nat.cast_one, mul_one_div,
      div_eq_iff hpos] at hmantissa
    exact_mod_cast hmantissa

theorem IntKind.i32_holds {n : ℕ} (h : n < 2 ^ 31) : IntKind.i32.holds n = true := by
  have hhigh : IntKind.i32.highest = 2 ^ 31 - 1 := by decide
  have hlow : IntKind.i32.lowest ≤ 0 := by decide
  simp only [IntKind.holds, Bool.and_eq_true, decide_eq_true_eq]
  omega

/-- **A small integer is written as a numeral that spells it.** -/
theorem isNumeral_render {n : ℕ} (h : IntKind.i32.holds n = true) :
    IsNumeral (Value.ofInt .i32 n).render.toList n := by
  have hsmall : n < 2 ^ 31 := by
    simp only [IntKind.holds, Bool.and_eq_true, decide_eq_true_eq] at h
    have hhigh : IntKind.i32.highest = 2 ^ 31 - 1 := by decide
    omega
  have hrender :
      (Value.ofInt .i32 n).render = FloatFormat.double.text (Binary64.ofInt n).toBits.toNat := by
    simp only [Value.ofInt, Value.render, Value.toFloat?, Value.number?, Option.map_some,
      Value.Number.toFloat, IntKind.toInt_wrap h, Binary64.text]
  obtain ⟨m, e, hdecode, hm, he, hvalue⟩ := Binary64.decode_ofNat hsmall
  have htext : (Value.ofInt .i32 n).render =
      positional (if m = 0 then (0, 0) else FloatFormat.double.shortest m e).1
        (if m = 0 then (0, 0) else FloatFormat.double.shortest m e).2 := by
    rw [hrender, FloatFormat.text, show FloatFormat.double.decode _ = _ from hdecode]
    exact String.empty_append
  rw [htext]
  by_cases hn : n = 0
  · subst hn
    rw [Nat.zero_mul] at hvalue
    rw [if_pos hvalue]
    exact isNumeral_positional 0 (Int.le_refl 0)
  · have hzero : m ≠ 0 := by
      rw [hvalue]
      exact Nat.mul_ne_zero hn (Nat.two_pow_pos _).ne'
    obtain ⟨hk, hdigits⟩ :=
      FloatFormat.shortest_eq (f := .double) he hvalue hn (hm.trans (by decide))
    have hnumeral := isNumeral_positional (FloatFormat.double.shortest m e).1 hk
    rw [hdigits] at hnumeral
    rwa [if_neg hzero]

end Formula
