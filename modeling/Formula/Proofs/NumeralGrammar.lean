import Formula.Proofs.Tokens

/-!
# The grammar of numerals

A numeric literal, by what it is made of: digits behind the mark of a base, or digits with a
fraction and an exponent, and a letter for the kind. `NumeralAt cs form rest` says that such a
numeral stands at the start of a text, and what follows it. Each part is taken whenever it is there,
and as much of it as there is (`Takes`). `NumeralForm.value?` is the constant that a numeral says,
if its kind has one. For a numeral of `decimal` whose digits cannot be counted it is a trap
(`NumeralForm.Overflows`).

`readNumber_grammar`: a constant is read exactly where a numeral stands that says it and that no
name runs on from, and reading traps exactly where a numeral stands whose digits cannot be counted.
Everything else is kept as raw text, up to the end of the name it runs into.
-/

namespace Formula

/-! ## Parts -/

/-- The text starts with a part, of which the longest is taken, or it starts with no such part.
`part text a` says that `text` is such a part and stands for `a`. -/
inductive Takes {α : Type} (part : List Char → α → Prop) (cs : List Char) :
    Option α → List Char → Prop
  | some {text rest : List Char} {a : α} : part text a → cs = text ++ rest →
    (∀ text' rest' a', part text' a' → cs = text' ++ rest' → text'.length ≤ text.length) →
      Takes part cs (some a) rest
  | none : (∀ text rest a, part text a → cs ≠ text ++ rest) → Takes part cs none cs

/-- What is taken is determined by the text. -/
theorem Takes.unique {α : Type} {part : List Char → α → Prop}
    (hpart : ∀ text a a', part text a → part text a' → a = a') {cs rest rest' : List Char}
    {a a' : Option α} (h : Takes part cs a rest) (h' : Takes part cs a' rest') :
    a = a' ∧ rest = rest' := by
  cases h with
  | none hnone =>
    cases h' with
    | none => exact ⟨rfl, rfl⟩
    | some hp hcs => exact (hnone _ _ _ hp hcs).elim
  | some hp hcs hlongest =>
    cases h' with
    | none hnone => exact (hnone _ _ _ hp hcs).elim
    | some hp' hcs' hlongest' =>
      have hlength := Nat.le_antisymm (hlongest' _ _ _ hp hcs) (hlongest _ _ _ hp' hcs')
      obtain ⟨rfl, rfl⟩ := List.append_inj (hcs.symm.trans hcs') hlength
      exact ⟨congrArg _ (hpart _ _ _ hp hp'), rfl⟩

/-- A dot and the digits behind it. -/
def FractionPart (text digits : List Char) : Prop :=
  text = '.' :: digits ∧ digits ≠ [] ∧ ∀ x ∈ digits, x.isDigit = true

/-- A letter, perhaps a sign, and digits. -/
def ExponentPart (text : List Char) (e : Int) : Prop :=
  ∃ letter ∈ ['e', 'E'], ∃ sign digits, digits ≠ [] ∧ (∀ x ∈ digits, x.isDigit = true) ∧
    text = letter :: (Exponent.signText sign ++ digits) ∧
    e = if sign = some true then -(spelledIn 10 digits : Int) else spelledIn 10 digits

/-- The letters of a suffix. -/
def Suffix.letters : Suffix → List Char
  | .single => ['f', 'F']
  | .double => ['d', 'D']
  | .decimal => ['m', 'M']
  | .long => ['l', 'L']
  | .unsigned => ['u', 'U']

/-- The letter of an allowed suffix. -/
def SuffixPart (allowed : Suffix → Bool) (text : List Char) (s : Suffix) : Prop :=
  ∃ x ∈ s.letters, text = [x] ∧ allowed s = true

/-! ## Forms -/

/-- What a numeral says: a whole number, or digits of which some are behind the point, and a power
of ten. -/
inductive NumeralForm where
  | whole (n : Nat) (suffix : Option Suffix)
  | fractional (digits places : Nat) (exponent : Int) (suffix : Option Suffix)

/-- The kind of a whole number: by its suffix, or the first of four kinds that has it. -/
def wholeKind? (n : Nat) : Option Suffix → Option IntKind
  | none =>
    if n < 2 ^ 31 then some .i32 else if n < 2 ^ 32 then some .u32
    else if n < 2 ^ 63 then some .i64 else if n < 2 ^ 64 then some .u64 else none
  | some .long => if n < 2 ^ 63 then some .i64 else none
  | some .unsigned => if n < 2 ^ 32 then some .u32 else if n < 2 ^ 64 then some .u64 else none
  | some _ => none

/-- The constant of a decimal that is brought into range. -/
def decimalValue? : Option Decimal → Except Trap (Option Value)
  | some d => d.fit?.map fun fitting => fitting.map Value.decimal
  | none => .ok none

/-- The constant of a kind that is no integer. -/
def realValue? (digits places : Nat) (exponent : Int) : Suffix → Except Trap (Option Value)
  | .single =>
    .ok (some (.f32 (Binary32.ofPattern (FloatFormat.single.ofDecimal digits (exponent - places)))))
  | .double =>
    .ok (some (.f64 (Binary64.ofPattern (FloatFormat.double.ofDecimal digits (exponent - places)))))
  | .decimal => decimalValue? (Decimal.ofDigits? digits places exponent)
  | .long | .unsigned => .ok none

namespace NumeralForm

/-- The constant that a numeral says. -/
def value? : NumeralForm → Except Trap (Option Value)
  | .whole n (some .single) => realValue? n 0 0 .single
  | .whole n (some .double) => realValue? n 0 0 .double
  | .whole n (some .decimal) => realValue? n 0 0 .decimal
  | .whole n suffix => .ok ((wholeKind? n suffix).map fun k => .ofInt k n)
  | .fractional digits places exponent suffix =>
    realValue? digits places exponent (suffix.getD .double)

/-- What a numeral of `decimal` says, digit for digit, if its scale has 64 bits. -/
def decimal? : NumeralForm → Option Decimal
  | .whole n (some .decimal) => Decimal.ofDigits? n 0 0
  | .fractional digits places exponent (some .decimal) => Decimal.ofDigits? digits places exponent
  | _ => none

/-- The digits of a numeral of `decimal` are asked for and cannot be counted. -/
def Overflows (form : NumeralForm) : Prop := ∃ d ∈ form.decimal?, d.mantissa ≠ 0 ∧ ¬ d.CountFits

/-- The form of a decimal numeral. -/
def ofParts (whole : List Char) (fraction : Option (List Char)) (exponent : Option Int)
    (suffix : Option Suffix) : NumeralForm :=
  match fraction, exponent with
  | none, none => .whole (spelledIn 10 whole) suffix
  | _, _ => .fractional (spelledIn 10 (whole ++ fraction.getD [])) (fraction.getD []).length
      (exponent.getD 0) suffix

end NumeralForm

/-- The bases that a mark announces. -/
inductive Radix where
  | hexadecimal | binary

namespace Radix

/-- The number of digits. -/
def base : Radix → Nat
  | .hexadecimal => 16
  | .binary => 2

/-- The letters that announce the base behind a zero. -/
def marks : Radix → List Char
  | .hexadecimal => ['x', 'X']
  | .binary => ['b', 'B']

/-- The digits. -/
def isDigit : Radix → Char → Bool
  | .hexadecimal => isHexDigit
  | .binary => isBinaryDigit

end Radix

/-- The text starts with a numeral, and `rest` follows it. -/
inductive NumeralAt : List Char → NumeralForm → List Char → Prop
  | radix (r : Radix) {mark : Char} {digits more rest : List Char} {suffix : Option Suffix} :
    mark ∈ r.marks → digits ≠ [] → (∀ x ∈ digits, r.isDigit x = true) → StopsAt r.isDigit more →
    Takes (SuffixPart Suffix.isInteger) more suffix rest →
      NumeralAt ('0' :: mark :: (digits ++ more)) (.whole (spelledIn r.base digits) suffix) rest
  | decimal {whole more₁ more₂ more₃ rest : List Char} {fraction : Option (List Char)}
      {exponent : Option Int} {suffix : Option Suffix} :
    (∀ x ∈ whole, x.isDigit = true) → StopsAt Char.isDigit more₁ →
    Takes FractionPart more₁ fraction more₂ → (whole ≠ [] ∨ fraction.isSome = true) →
    Takes ExponentPart more₂ exponent more₃ → Takes (SuffixPart fun _ => true) more₃ suffix rest →
      NumeralAt (whole ++ more₁) (.ofParts whole fraction exponent suffix) rest

/-! ## Characters -/

/-- A letter of either case. -/
theorem eq_or_of_toLower_eq {c l : Char} (h : c.toLower = l) : c = l ∨ c.toNat + 32 = l.toNat := by
  unfold Char.toLower at h
  split at h
  · rename_i hupper
    right
    subst h
    have hhigh : c.val.toNat ≤ 90 := UInt32.le_iff_toNat_le.mp hupper.2
    show c.val.toNat + 32 = (c.val + 32).toNat
    rw [UInt32.toNat_add]
    exact (Nat.mod_eq_of_lt (by show c.val.toNat + 32 < 4294967296; omega)).symm
  · exact .inl h

theorem mem_of_toLower_eq {c l u : Char} (hlu : u.toNat + 32 = l.toNat) (h : c.toLower = l) :
    c ∈ [l, u] := by
  rcases eq_or_of_toLower_eq h with rfl | h
  · exact List.mem_cons_self
  · rw [Char.toNat_inj.mp (show c.toNat = u.toNat by omega)]
    exact List.mem_cons_of_mem l List.mem_cons_self

theorem Suffix.ofChar?_eq_some_iff {c : Char} {s : Suffix} :
    Suffix.ofChar? c = some s ↔ c ∈ s.letters := by
  constructor
  · intro h
    unfold Suffix.ofChar? at h
    split at h <;> cases h <;> exact mem_of_toLower_eq rfl ‹_›
  · cases s <;> simp only [letters, List.mem_cons, List.not_mem_nil, or_false] <;>
      rintro (rfl | rfl) <;> rfl

/-- A base that is announced. -/
theorem exists_radix_of_radix? {cs : List Char} {found : Nat × (Char → Bool)}
    (h : radix? cs = some found) :
    ∃ (r : Radix) (mark : Char) (more : List Char), mark ∈ r.marks ∧ cs = '0' :: mark :: more ∧
      found = (r.base, r.isDigit) := by
  unfold radix? at h
  split at h
  · rename_i zero mark more
    split at h
    · rename_i hhex
      obtain ⟨rfl, hmark⟩ := hhex
      cases h
      exact ⟨.hexadecimal, mark, more, mem_of_toLower_eq rfl hmark, rfl, rfl⟩
    · split at h
      · rename_i hbinary
        obtain ⟨rfl, hmark⟩ := hbinary
        cases h
        exact ⟨.binary, mark, more, mem_of_toLower_eq rfl hmark, rfl, rfl⟩
      · cases h
  · cases h

theorem radix?_mark {r : Radix} {mark : Char} (h : mark ∈ r.marks) (more : List Char) :
    radix? ('0' :: mark :: more) = some (r.base, r.isDigit) := by
  revert h
  cases r <;> simp only [Radix.marks, List.mem_cons, List.not_mem_nil, or_false] <;>
      rintro (rfl | rfl) <;> rfl

theorem isNameChar_of_isDigit {x : Char} (h : x.isDigit = true) : isNameChar x = true := by
  simp [isNameChar, Char.isAlphanum, h]

theorem isNameChar_of_mem_letters {s : Suffix} {x : Char} (h : x ∈ s.letters) :
    isNameChar x = true := by
  revert h
  cases s <;> simp only [Suffix.letters, List.mem_cons, List.not_mem_nil, or_false] <;>
      rintro (rfl | rfl) <;> rfl

theorem isNameChar_of_mem_marks {r : Radix} {x : Char} (h : x ∈ r.marks) : isNameChar x = true := by
  revert h
  cases r <;> simp only [Radix.marks, List.mem_cons, List.not_mem_nil, or_false] <;>
      rintro (rfl | rfl) <;> rfl

theorem isNameChar_of_radix {r : Radix} {x : Char} (h : r.isDigit x = true) :
    isNameChar x = true := by
  cases r with
  | binary =>
    simp only [Radix.isDigit, isBinaryDigit, Bool.or_eq_true, decide_eq_true_eq] at h
    rcases h with rfl | rfl <;> rfl
  | hexadecimal =>
    rcases (Bool.or_eq_true _ _).mp h with hdigit | hletter
    · exact isNameChar_of_isDigit hdigit
    · obtain ⟨hlow, hhigh⟩ := (Bool.and_eq_true _ _).mp hletter
      have hlow := of_decide_eq_true hlow
      have hhigh := of_decide_eq_true hhigh
      have halpha : x.isAlpha = true := by
        unfold Char.toLower at hlow hhigh
        split at hlow
        · rename_i hupper
          exact (Bool.or_eq_true _ _).mpr (.inl (decide_eq_true hupper))
        · rename_i hupper
          rw [dif_neg hupper] at hhigh
          have hz : x.val ≤ 'z'.val := UInt32.le_trans hhigh (by decide)
          exact (Bool.or_eq_true _ _).mpr
            (.inr ((Bool.and_eq_true _ _).mpr ⟨decide_eq_true hlow, decide_eq_true hz⟩))
      simp [isNameChar, Char.isAlphanum, halpha]

/-! ## Reading the parts -/

/-- A run of a class at the start of a text is not longer than the longest one. -/
theorem length_le_takeWhile {p : Char → Bool} {run rest : List Char} (h : ∀ x ∈ run, p x = true) :
    run.length ≤ ((run ++ rest).takeWhile p).length := by
  rw [List.takeWhile_append_of_pos h, List.length_append]
  exact Nat.le_add_right _ _

theorem takeWhile_ne_nil {p : Char → Bool} {cs : List Char} (h : cs.head?.any p = true) :
    cs.takeWhile p ≠ [] := by
  cases cs with
  | nil => cases h
  | cons x cs => simp [show p x = true from h]

theorem head?_any_append {p : Char → Bool} {run : List Char} (rest : List Char) (hne : run ≠ [])
    (h : ∀ x ∈ run, p x = true) : (run ++ rest).head?.any p = true := by
  obtain ⟨x, run, rfl⟩ := List.exists_cons_of_ne_nil hne
  exact h x List.mem_cons_self

theorem all_takeWhile {p : Char → Bool} {cs : List Char} : ∀ x ∈ cs.takeWhile p, p x = true :=
  List.all_eq_true.mp List.all_takeWhile

theorem stopsAt_dropWhile (p : Char → Bool) (cs : List Char) : StopsAt p (cs.dropWhile p) := by
  intro x hx
  have hhead := List.head?_dropWhile_not p cs
  rw [show (cs.dropWhile p).head? = some x from hx] at hhead
  simpa using hhead

theorem takeFraction_takes (cs : List Char) :
    Takes FractionPart cs (takeFraction cs).1 (takeFraction cs).2 := by
  cases cs with
  | nil => exact .none fun text rest digits ⟨htext, _⟩ h => by simp [htext] at h
  | cons dot rest =>
    simp only [takeFraction]
    split
    · rename_i hfraction
      obtain ⟨rfl, hdigit⟩ := hfraction
      refine .some ⟨rfl, takeWhile_ne_nil hdigit, all_takeWhile⟩ ?_ ?_
      · rw [List.cons_append, List.takeWhile_append_dropWhile]
      · rintro _ rest' digits ⟨rfl, -, hdigits⟩ h
        cases h
        exact Nat.succ_le_succ (length_le_takeWhile hdigits)
    · rename_i hfraction
      refine .none ?_
      rintro _ rest' digits ⟨rfl, hne, hdigits⟩ h
      cases h
      exact hfraction ⟨rfl, head?_any_append rest' hne hdigits⟩

theorem takeSuffix_takes (allowed : Suffix → Bool) (cs : List Char) :
    Takes (SuffixPart allowed) cs (takeSuffix allowed cs).1 (takeSuffix allowed cs).2 := by
  have hnone {x : Char} {rest : List Char} (h : ∀ s, Suffix.ofChar? x = some s →
      allowed s = false) :
      Takes (SuffixPart allowed) (x :: rest) none (x :: rest) := by
    refine .none ?_
    rintro _ rest' s ⟨y, hy, rfl, hallowed⟩ heq
    cases heq
    rw [h s (Suffix.ofChar?_eq_some_iff.mpr hy)] at hallowed
    cases hallowed
  cases cs with
  | nil => exact .none fun text rest s ⟨x, _, htext, _⟩ h => by simp [htext] at h
  | cons x rest =>
    simp only [takeSuffix]
    cases hx : Suffix.ofChar? x with
    | none => exact hnone (by simp [hx])
    | some s =>
      simp only
      split
      · rename_i hallowed
        refine .some ⟨x, Suffix.ofChar?_eq_some_iff.mp hx, rfl, hallowed⟩ rfl ?_
        rintro _ rest' s' ⟨y, -, rfl, -⟩ -
        exact Nat.le_refl _
      · rename_i hallowed
        exact hnone (by simpa [hx] using hallowed)

/-- A sign is taken whenever it is there. -/
theorem takeSign_eq (cs : List Char) :
    ∃ sign, cs = Exponent.signText sign ++ (takeSign cs).2 ∧
      (takeSign cs).1 = decide (sign = some true) := by
  cases cs with
  | nil => exact ⟨none, rfl, rfl⟩
  | cons x rest =>
    simp only [takeSign]
    split
    · rename_i hminus
      exact ⟨some true, by rw [hminus]; rfl, rfl⟩
    · split
      · rename_i hplus
        exact ⟨some false, by rw [hplus]; rfl, rfl⟩
      · exact ⟨none, rfl, rfl⟩

theorem takeSign_digits (sign : Option Bool) {digits : List Char} (rest : List Char)
    (hne : digits ≠ []) (h : ∀ x ∈ digits, x.isDigit = true) :
    takeSign (Exponent.signText sign ++ (digits ++ rest)) =
      (decide (sign = some true), digits ++ rest) := by
  obtain ⟨x, digits, rfl⟩ := List.exists_cons_of_ne_nil hne
  exact takeSign_signText sign (h x List.mem_cons_self)

theorem takeExponent_takes (cs : List Char) :
    Takes ExponentPart cs (takeExponent cs).1 (takeExponent cs).2 := by
  cases cs with
  | nil =>
    refine .none ?_
    rintro _ rest' e ⟨letter, -, sign, digits, -, -, rfl, -⟩ h
    cases h
  | cons letter rest =>
    obtain ⟨sign, hrest, hnegative⟩ := takeSign_eq rest
    simp only [takeExponent]
    split
    · rename_i hexponent
      obtain ⟨hletter, hdigit⟩ := hexponent
      refine .some ⟨letter, by simpa using hletter, sign, _, takeWhile_ne_nil hdigit,
        all_takeWhile, rfl, ?_⟩ ?_ ?_
      · rw [hnegative, digitsValue_eq_spelledIn]
        simp
      · rw [List.cons_append, List.append_assoc, List.takeWhile_append_dropWhile, ← hrest]
      · rintro _ rest' e ⟨letter', -, sign', digits, hne, hdigits, rfl, -⟩ h
        rw [List.cons_append, List.append_assoc] at h
        obtain ⟨rfl, htail⟩ := List.cons.inj h
        have hsign := takeSign_digits sign' rest' hne hdigits
        rw [← htail] at hsign
        have hlength := congrArg List.length (htail.symm.trans hrest)
        simp only [hsign, List.length_append, List.length_cons] at hlength ⊢
        have hle : digits.length ≤ ((digits ++ rest').takeWhile Char.isDigit).length :=
          length_le_takeWhile hdigits
        omega
    · rename_i hexponent
      refine .none ?_
      rintro _ rest' e ⟨letter', hletter', sign', digits, hne, hdigits, rfl, -⟩ h
      rw [List.cons_append, List.append_assoc] at h
      obtain ⟨rfl, htail⟩ := List.cons.inj h
      rw [htail, takeSign_digits sign' rest' hne hdigits] at hexponent
      exact hexponent ⟨by simpa using hletter', head?_any_append rest' hne hdigits⟩

private theorem fractionPart_unique (text digits digits' : List Char) (h : FractionPart text digits)
    (h' : FractionPart text digits') : digits = digits' :=
  (List.cons.inj (h.1.symm.trans h'.1)).2

private theorem suffixPart_unique {allowed : Suffix → Bool} (text : List Char) (s s' : Suffix)
    (h : SuffixPart allowed text s) (h' : SuffixPart allowed text s') : s = s' := by
  obtain ⟨x, hx, rfl, -⟩ := h
  obtain ⟨_, hx', ⟨⟩, -⟩ := h'
  exact Option.some.inj
    ((Suffix.ofChar?_eq_some_iff.mpr hx).symm.trans (Suffix.ofChar?_eq_some_iff.mpr hx'))

private theorem exponentPart_unique (text : List Char) (e e' : Int) (h : ExponentPart text e)
    (h' : ExponentPart text e') : e = e' := by
  obtain ⟨letter, -, sign, digits, hne, hdigits, rfl, rfl⟩ := h
  obtain ⟨letter', -, sign', digits', hne', hdigits', htext, rfl⟩ := h'
  have hsign := takeSign_digits sign [] hne hdigits
  have hsign' := takeSign_digits sign' [] hne' hdigits'
  rw [List.append_nil, (List.cons.inj htext).2] at hsign
  rw [List.append_nil, hsign] at hsign'
  obtain ⟨hnegative, rfl⟩ := Prod.mk.inj hsign'
  simp only [decide_eq_decide] at hnegative
  simp only [hnegative]

theorem Takes.fraction_eq {cs rest : List Char} {fraction : Option (List Char)}
    (h : Takes FractionPart cs fraction rest) : takeFraction cs = (fraction, rest) :=
  Prod.ext_iff.mpr ((takeFraction_takes cs).unique fractionPart_unique h)

theorem Takes.exponent_eq {cs rest : List Char} {exponent : Option Int}
    (h : Takes ExponentPart cs exponent rest) : takeExponent cs = (exponent, rest) :=
  Prod.ext_iff.mpr ((takeExponent_takes cs).unique exponentPart_unique h)

theorem Takes.suffix_eq {allowed : Suffix → Bool} {cs rest : List Char} {suffix : Option Suffix}
    (h : Takes (SuffixPart allowed) cs suffix rest) : takeSuffix allowed cs = (suffix, rest) :=
  Prod.ext_iff.mpr ((takeSuffix_takes allowed cs).unique suffixPart_unique h)

/-- A suffix that is taken is allowed, and its letter may stand in a name. -/
theorem Takes.suffix_run {allowed : Suffix → Bool} {cs rest : List Char} {suffix : Option Suffix}
    (h : Takes (SuffixPart allowed) cs suffix rest) :
    suffix.all allowed = true ∧ ∃ run, (∀ x ∈ run, isNameChar x = true) ∧ cs = run ++ rest := by
  cases h with
  | none => exact ⟨rfl, [], by simp, rfl⟩
  | some hpart hcs =>
    obtain ⟨x, hx, rfl, hallowed⟩ := hpart
    exact ⟨hallowed, [x], by simpa using isNameChar_of_mem_letters hx, hcs⟩

/-! ## Values -/

theorem IntKind.holds_natCast (k : IntKind) (n : Nat) :
    k.holds n = decide (n < (k.highest + 1).toNat) := by
  have hlowest : k.lowest ≤ n := Int.le_trans (by cases k <;> decide) (Int.natCast_nonneg n)
  have hhighest : 0 ≤ k.highest := by cases k <;> decide
  rw [holds, decide_eq_true hlowest, Bool.true_and, decide_eq_decide]
  omega

/-- The kinds are tried one after the other. -/
theorem find?_holds_cons (k : IntKind) (kinds : List IntKind) (n : Nat) :
    (k :: kinds).find? (·.holds n) =
      if n < (k.highest + 1).toNat then some k else kinds.find? (·.holds n) := by
  rw [List.find?_cons, IntKind.holds_natCast]
  by_cases h : n < (k.highest + 1).toNat <;> simp [h]

theorem integerLiteral_eq (n : Nat) (suffix : Option Suffix) :
    integerLiteral n suffix = (wholeKind? n suffix).map fun k => .ofInt k n := by
  unfold integerLiteral wholeKind?
  rcases suffix with _ | _ | _ | _ | _ | _ <;> simp only [find?_holds_cons, List.find?_nil] <;> rfl

/-- Nothing holds a number of more than 64 bits. -/
theorem wholeKind?_eq_none {n : Nat} (h : ¬ n < 2 ^ 64) (suffix : Option Suffix) :
    wholeKind? n suffix = none := by
  have h31 : ¬ n < 2 ^ 31 := by omega
  have h32 : ¬ n < 2 ^ 32 := by omega
  have h63 : ¬ n < 2 ^ 63 := by omega
  rcases suffix with _ | _ | _ | _ | _ | _ <;> simp only [wholeKind?, h, h31, h32, h63, if_false]

theorem NumeralForm.value?_whole {suffix : Option Suffix}
    (h : suffix.all Suffix.isInteger = true) (n : Nat) :
    (NumeralForm.whole n suffix).value? = .ok ((wholeKind? n suffix).map fun k => .ofInt k n) := by
  rcases suffix with _ | _ | _ | _ | _ | _ <;> first | rfl | cases h

theorem decimalValue?_eq_error_iff {decimal : Option Decimal} {trap : Trap} :
    decimalValue? decimal = .error trap ↔
      trap = .digitCount ∧ ∃ d ∈ decimal, d.mantissa ≠ 0 ∧ ¬ d.CountFits := by
  cases decimal with
  | none => exact ⟨nofun, fun ⟨_, _, hd, _⟩ => nomatch hd⟩
  | some d =>
    have hfit := @Decimal.Arithmetic.fit?_eq_error_iff Decimal.arithmetic d trap
    constructor
    · intro h
      obtain ⟨htrap, hd⟩ := hfit.mp (Except.map_error h)
      exact ⟨htrap, d, rfl, hd⟩
    · rintro ⟨htrap, _, ⟨⟩, hd⟩
      rw [decimalValue?, Decimal.fit?, hfit.mpr ⟨htrap, hd⟩]
      rfl

theorem NumeralForm.value?_eq_error_iff {form : NumeralForm} {trap : Trap} :
    form.value? = .error trap ↔ trap = .digitCount ∧ form.Overflows := by
  have hother : form.decimal? = none → ¬ form.Overflows := by
    rintro hnone ⟨d, hd, -⟩
    cases hnone.symm.trans hd
  rcases form with ⟨n, _ | _ | _ | _ | _ | _⟩ | ⟨digits, places, exponent, _ | _ | _ | _ | _ | _⟩
  case whole.some.decimal => exact @decimalValue?_eq_error_iff (Decimal.ofDigits? n 0 0) trap
  case fractional.some.decimal => exact decimalValue?_eq_error_iff
  all_goals exact ⟨nofun, fun h => (hother rfl h.2).elim⟩

private theorem decimalLiteral_decimal (digits places : Nat) (exponent : Int) (fractional : Bool) :
    decimalLiteral digits places exponent fractional (some .decimal) =
      decimalValue? (Decimal.ofDigits? digits places exponent) := by
  simp only [decimalLiteral]
  cases Decimal.ofDigits? digits places exponent <;> rfl

theorem decimalLiteral_eq (whole : List Char) (fraction : Option (List Char))
    (exponent : Option Int) (suffix : Option Suffix) :
    decimalLiteral (digitsValue 10 (whole ++ fraction.getD [])) (fraction.getD []).length
      (exponent.getD 0) (fraction.isSome || exponent.isSome) suffix =
        (NumeralForm.ofParts whole fraction exponent suffix).value? := by
  rw [digitsValue_eq_spelledIn]
  cases fraction with
  | some digits =>
    rcases suffix with _ | _ | _ | _ | _ | _
    case some.decimal => exact decimalLiteral_decimal ..
    all_goals rfl
  | none =>
    cases exponent with
    | some e =>
      rcases suffix with _ | _ | _ | _ | _ | _
      case some.decimal => exact decimalLiteral_decimal ..
      all_goals rfl
    | none =>
      rw [Option.getD_none, List.append_nil]
      rcases suffix with _ | _ | _ | _ | _ | _
      · exact congrArg Except.ok (integerLiteral_eq (spelledIn 10 whole) none)
      · rfl
      · rfl
      · exact decimalLiteral_decimal ..
      · exact congrArg Except.ok (integerLiteral_eq (spelledIn 10 whole) (some .long))
      · exact congrArg Except.ok (integerLiteral_eq (spelledIn 10 whole) (some .unsigned))

/-! ## Reading a numeral -/

theorem takeDecimal_eq {whole more₁ more₂ more₃ rest : List Char} {fraction : Option (List Char)}
    {exponent : Option Int} {suffix : Option Suffix} (hwhole : ∀ x ∈ whole, x.isDigit = true)
    (hstop : StopsAt Char.isDigit more₁) (hfraction : Takes FractionPart more₁ fraction more₂)
    (hne : whole ≠ [] ∨ fraction.isSome = true)
    (hexponent : Takes ExponentPart more₂ exponent more₃)
    (hsuffix : Takes (SuffixPart fun _ => true) more₃ suffix rest) :
    takeDecimal (whole ++ more₁) =
      ((NumeralForm.ofParts whole fraction exponent suffix).value?, rest) := by
  have hempty : (whole.isEmpty && fraction.isNone) = false := by
    rcases hne with hne | hne
    · simp [hne]
    · simp [hne]
  simp only [takeDecimal, hstop.takeWhile hwhole, hstop.dropWhile hwhole, hfraction.fraction_eq,
    hexponent.exponent_eq, hsuffix.suffix_eq, hempty, decimalLiteral_eq]
  rfl

/-- Behind the mark of a base all digits are taken, and a suffix if the number has 64 bits at
most. -/
theorem takeRadix_eq (r : Radix) {digits more rest : List Char} {suffix : Option Suffix}
    (hne : digits ≠ []) (hdigits : ∀ x ∈ digits, r.isDigit x = true)
    (hstop : StopsAt r.isDigit more)
    (hsuffix : Takes (SuffixPart Suffix.isInteger) more suffix rest) :
    takeRadix r.base r.isDigit (digits ++ more) =
      ((wholeKind? (spelledIn r.base digits) suffix).map
          fun k => .ofInt k (spelledIn r.base digits),
        if spelledIn r.base digits < 2 ^ 64 then rest else more) := by
  have hempty : digits.isEmpty = false := by simpa using hne
  have hholds :
      IntKind.u64.holds (spelledIn r.base digits) = decide (spelledIn r.base digits < 2 ^ 64) :=
    IntKind.holds_natCast .u64 _
  simp only [takeRadix, hstop.takeWhile hdigits, hstop.dropWhile hdigits,
    digitsValue_eq_spelledIn, hempty, hholds, hsuffix.suffix_eq, integerLiteral_eq]
  by_cases h : spelledIn r.base digits < 2 ^ 64
  · simp only [decide_eq_true h, if_pos h]
    rfl
  · simp only [decide_eq_false h, if_neg h, wholeKind?_eq_none h]
    rfl

/-- What is passed over behind the mark of a base are digits and a suffix. -/
theorem takeRadix_run (r : Radix) (cs : List Char) :
    ∃ run, (∀ x ∈ run, isNameChar x = true) ∧ cs = run ++ (takeRadix r.base r.isDigit cs).2 := by
  have hdigits : ∀ x ∈ cs.takeWhile r.isDigit, isNameChar x = true :=
    fun x hx => isNameChar_of_radix (all_takeWhile x hx)
  have hcs : cs = cs.takeWhile r.isDigit ++ cs.dropWhile r.isDigit :=
    List.takeWhile_append_dropWhile.symm
  simp only [takeRadix]
  split
  · exact ⟨_, hdigits, hcs⟩
  · obtain ⟨-, run, hrun, hrest⟩ :=
      (takeSuffix_takes Suffix.isInteger (cs.dropWhile r.isDigit)).suffix_run
    refine ⟨cs.takeWhile r.isDigit ++ run, List.forall_mem_append.mpr ⟨hdigits, hrun⟩, ?_⟩
    rw [List.append_assoc, ← hrest]
    exact hcs

/-- The mark of a base is no part of a decimal numeral. -/
theorem take_mark {r : Radix} {mark : Char} (h : mark ∈ r.marks) (more : List Char) :
    mark.isDigit = false ∧ takeFraction (mark :: more) = (none, mark :: more) ∧
      takeExponent (mark :: more) = (none, mark :: more) ∧
      takeSuffix (fun _ => true) (mark :: more) = (none, mark :: more) := by
  revert h
  cases r <;> simp only [Radix.marks, List.mem_cons, List.not_mem_nil, or_false] <;>
    rintro (rfl | rfl) <;> refine ⟨rfl, ?_, ?_, rfl⟩ <;> simp [takeFraction, takeExponent]

/-- Where a base is announced, only the zero is a decimal numeral. -/
theorem eq_mark_of_decimal {r : Radix} {mark : Char} {more whole more₁ more₂ more₃ rest : List Char}
    {fraction : Option (List Char)} {exponent : Option Int} {suffix : Option Suffix}
    (hmark : mark ∈ r.marks) (hcs : whole ++ more₁ = '0' :: mark :: more)
    (hwhole : ∀ x ∈ whole, x.isDigit = true) (hstop : StopsAt Char.isDigit more₁)
    (hfraction : Takes FractionPart more₁ fraction more₂)
    (hexponent : Takes ExponentPart more₂ exponent more₃)
    (hsuffix : Takes (SuffixPart fun _ => true) more₃ suffix rest) :
    rest = mark :: more ∧ fraction = none ∧ exponent = none ∧ suffix = none := by
  obtain ⟨hdigit, hf, he, hs⟩ := take_mark hmark more
  have hmore : more₁ = mark :: more := by
    rcases whole with _ | ⟨zero, _ | ⟨second, whole⟩⟩
    · rw [List.nil_append] at hcs
      cases hstop '0' (by rw [hcs]; rfl)
    · exact (List.cons.inj hcs).2
    · obtain ⟨rfl, -⟩ := List.cons.inj (List.cons.inj hcs).2
      rw [hwhole second (by simp)] at hdigit
      cases hdigit
  subst hmore
  cases hf.symm.trans hfraction.fraction_eq
  cases he.symm.trans hexponent.exponent_eq
  cases hs.symm.trans hsuffix.suffix_eq
  exact ⟨rfl, rfl, rfl, rfl⟩

/-- What reading a numeral gives, where one stands: its constant, unless it runs on into a name. In
either case the rest of the name follows. A trap is met before the name is. -/
theorem NumeralAt.takeNumber {cs rest : List Char} {form : NumeralForm}
    (h : NumeralAt cs form rest) :
    (takeNumber cs).2.dropWhile isNameChar = rest.dropWhile isNameChar ∧
      (StopsAt isNameChar rest → (Formula.takeNumber cs).1 = form.value? ∧
        ∀ v, form.value? = .ok (some v) → (Formula.takeNumber cs).2 = rest) ∧
      ∀ trap, form.value? = .error trap → (Formula.takeNumber cs).1 = .error trap := by
  cases h with
  | radix r hmark hne hdigits hstop hsuffix =>
    rename_i mark digits more suffix
    have hradix := takeRadix_eq r hne hdigits hstop hsuffix
    obtain ⟨hinteger, run, hrun, rfl⟩ := hsuffix.suffix_run
    have htake : Formula.takeNumber ('0' :: mark :: (digits ++ (run ++ rest))) =
        ((NumeralForm.whole (spelledIn r.base digits) suffix).value?,
          if spelledIn r.base digits < 2 ^ 64 then rest else run ++ rest) := by
      rw [Formula.takeNumber, radix?_mark hmark, NumeralForm.value?_whole hinteger]
      simp only [List.drop_succ_cons, List.drop_zero, hradix]
    rw [htake]
    refine ⟨?_, fun _ => ⟨rfl, fun v hv => ?_⟩, fun trap htrap => htrap⟩
    · split
      · rfl
      · exact List.dropWhile_append_of_pos hrun
    · refine if_pos (not_not.mp fun hfits => ?_)
      rw [NumeralForm.value?_whole hinteger, wholeKind?_eq_none hfits] at hv
      cases hv
  | decimal hwhole hstop hfraction hne hexponent hsuffix =>
    rename_i whole more₁ more₂ more₃ fraction exponent suffix
    cases hr : radix? (whole ++ more₁) with
    | none =>
      rw [Formula.takeNumber, hr]
      rw [takeDecimal_eq hwhole hstop hfraction hne hexponent hsuffix]
      exact ⟨rfl, fun _ => ⟨rfl, fun _ _ => rfl⟩, fun _ htrap => htrap⟩
    | some found =>
      obtain ⟨r, mark, more, hmark, hcs, rfl⟩ := exists_radix_of_radix? hr
      obtain ⟨rfl, rfl, rfl, rfl⟩ :=
        eq_mark_of_decimal hmark hcs hwhole hstop hfraction hexponent hsuffix
      have hname := isNameChar_of_mem_marks hmark
      obtain ⟨run, hrun, hmore⟩ := takeRadix_run r more
      refine ⟨?_, fun hstops => ?_, fun _ htrap => by cases htrap⟩
      · rw [Formula.takeNumber, hr, hcs]
        show (takeRadix r.base r.isDigit more).2.dropWhile isNameChar = _
        rw [List.dropWhile_cons_of_pos hname]
        conv => rhs; rw [hmore]
        exact (List.dropWhile_append_of_pos hrun).symm
      · rw [hstops mark rfl] at hname
        cases hname

/-- Without digits and without a fraction there is no numeral, and one character is passed over. -/
theorem takeDecimal_of_none {cs : List Char} (hwhole : cs.takeWhile Char.isDigit = [])
    (hfraction : (takeFraction (cs.dropWhile Char.isDigit)).1 = none) :
    takeDecimal cs = (.ok none, cs.drop 1) := by
  simp only [takeDecimal, hwhole, hfraction]
  rfl

theorem exists_numeralAt_of_takeNumber {cs rest : List Char} {outcome : Except Trap (Option Value)}
    (h : takeNumber cs = (outcome, rest)) (hne : outcome ≠ .ok none) :
    ∃ form, NumeralAt cs form rest ∧ form.value? = outcome := by
  unfold takeNumber at h
  split at h
  · rename_i hr
    obtain ⟨r, mark, more, hmark, rfl, hfound⟩ := exists_radix_of_radix? hr
    cases hfound
    obtain ⟨rfl, hrest⟩ := Prod.mk.inj h
    have hdigits : more.takeWhile r.isDigit ≠ [] := by
      intro hnil
      refine hne ?_
      simp [takeRadix, hnil]
    have hsuffix := takeSuffix_takes Suffix.isInteger (more.dropWhile r.isDigit)
    have hstop := stopsAt_dropWhile r.isDigit more
    have heq := takeRadix_eq r hdigits all_takeWhile hstop hsuffix
    have hat := NumeralAt.radix r hmark hdigits all_takeWhile hstop hsuffix
    rw [List.takeWhile_append_dropWhile] at heq hat
    rw [show List.drop 2 ('0' :: mark :: more) = more from rfl, heq] at hne hrest ⊢
    have hfits : spelledIn r.base (more.takeWhile r.isDigit) < 2 ^ 64 := by
      by_contra hfits
      rw [wholeKind?_eq_none hfits] at hne
      exact hne rfl
    rw [if_pos hfits] at hrest
    exact ⟨_, hrest ▸ hat, NumeralForm.value?_whole hsuffix.suffix_run.1 _⟩
  · have hstart : cs.takeWhile Char.isDigit ≠ [] ∨
        (takeFraction (cs.dropWhile Char.isDigit)).1.isSome = true := by
      by_contra hnot
      rw [not_or, not_not, Bool.not_eq_true, Option.isSome_eq_false_iff,
        Option.isNone_iff_eq_none] at hnot
      rw [takeDecimal_of_none hnot.1 hnot.2] at h
      exact hne (Prod.mk.inj h).1.symm
    have hstop := stopsAt_dropWhile Char.isDigit cs
    have hat :=
      NumeralAt.decimal all_takeWhile hstop (takeFraction_takes _) hstart (takeExponent_takes _)
      (takeSuffix_takes _ _)
    have heq :=
      takeDecimal_eq all_takeWhile hstop (takeFraction_takes _) hstart (takeExponent_takes _)
      (takeSuffix_takes _ _)
    rw [List.takeWhile_append_dropWhile] at heq hat
    rw [heq] at h
    obtain ⟨hvalue, hrest⟩ := Prod.mk.inj h
    exact ⟨_, hrest ▸ hat, hvalue⟩

/-- A digit or a fraction starts a numeral. -/
theorem exists_numeralAt {cs : List Char}
    (h : cs.takeWhile Char.isDigit ≠ [] ∨
      (takeFraction (cs.dropWhile Char.isDigit)).1.isSome = true) :
    ∃ form rest, NumeralAt cs form rest := by
  have hat := NumeralAt.decimal all_takeWhile (stopsAt_dropWhile Char.isDigit cs)
    (takeFraction_takes _) h (takeExponent_takes _) (takeSuffix_takes _ _)
  rw [List.takeWhile_append_dropWhile] at hat
  exact ⟨_, _, hat⟩

/-- How a numeral is told from raw text. -/
theorem readNumber_eq {c : Cursor} (hc : c.rest ≠ []) :
    ∃ raw, c.rest = raw ++ (takeNumber c.rest).2.dropWhile isNameChar ∧
      (readNumber c).2 = ⟨(takeNumber c.rest).2.dropWhile isNameChar, c.offset + byteLength raw⟩ ∧
      ((readNumber c).1 = .ok (.unresolved (String.ofList raw)) ∧
          ((takeNumber c.rest).1 = .ok none ∨
            ∃ v, (takeNumber c.rest).1 = .ok (some v) ∧
              ¬ StopsAt isNameChar (takeNumber c.rest).2) ∨
        (∃ v, (readNumber c).1 = .ok (.constant v) ∧ (takeNumber c.rest).1 = .ok (some v) ∧
          StopsAt isNameChar (takeNumber c.rest).2) ∨
        ∃ trap, (readNumber c).1 = .error trap ∧ (takeNumber c.rest).1 = .error trap) := by
  obtain ⟨hsuffix, -⟩ := takeNumber_suffix hc
  have hend := List.dropWhile_suffix isNameChar (l := (takeNumber c.rest).2)
  obtain ⟨raw, hraw⟩ := hend.trans hsuffix
  have htake (after : List Char) (h : raw ++ after = c.rest) :
      c.rest.take (c.rest.length - after.length) = raw := by
    rw [← h, List.length_append, Nat.add_sub_cancel, List.take_left]
  refine ⟨raw, hraw.symm, ?_, ?_⟩
  · simp only [readNumber, htake _ hraw]
  · simp only [readNumber, htake _ hraw]
    rcases hvalue : (takeNumber c.rest).1 with trap | _ | v
    · exact .inr (.inr ⟨trap, rfl, rfl⟩)
    · exact .inl ⟨rfl, .inl rfl⟩
    · simp only [Except.map]
      split
      · rename_i hlength
        refine .inr (.inl ⟨v, rfl, rfl, ?_⟩)
        rw [← hend.eq_of_length hlength.symm]
        exact stopsAt_dropWhile isNameChar _
      · rename_i hlength
        refine .inl ⟨rfl, .inr ⟨v, rfl, fun hstops => hlength ?_⟩⟩
        rw [show (takeNumber c.rest).2.dropWhile isNameChar = (takeNumber c.rest).2 from
          hstops.dropWhile (List.forall_mem_nil _)]

theorem StopsAt.dropWhile_self {p : Char → Bool} {rest : List Char} (h : StopsAt p rest) :
    rest.dropWhile p = rest :=
  h.dropWhile (List.forall_mem_nil _)

/-- A constant is read where a numeral stands that says it, and that no name goes on from. -/
theorem readNumber_constant_iff {c : Cursor} (hc : c.rest ≠ []) (v : Value) :
    (readNumber c).1 = .ok (.constant v) ↔ ∃ form,
      NumeralAt c.rest form ((takeNumber c.rest).2.dropWhile isNameChar) ∧
        form.value? = .ok (some v) := by
  obtain ⟨raw, -, -, hread⟩ := readNumber_eq hc
  have hafter := stopsAt_dropWhile isNameChar (takeNumber c.rest).2
  constructor
  · intro h
    rcases hread with ⟨hraw, -⟩ | ⟨v', hv', hvalue, hstops⟩ | ⟨trap, htrap, -⟩
    · cases hraw.symm.trans h
    · cases hv'.symm.trans h
      obtain ⟨form, hat, hform⟩ := exists_numeralAt_of_takeNumber (Prod.ext hvalue rfl) nofun
      exact ⟨form, hstops.dropWhile_self.symm ▸ hat, hform⟩
    · cases htrap.symm.trans h
  · rintro ⟨form, hat, hform⟩
    obtain ⟨hvalue, hrest⟩ := hat.takeNumber.2.1 hafter
    have hrest := hrest v hform
    have htaken := hvalue.trans hform
    rcases hread with ⟨-, hnone | ⟨v', -, hstops⟩⟩ | ⟨v', hv', hvalue', -⟩ | ⟨trap, -, htrap⟩
    · cases hnone.symm.trans htaken
    · exact (hstops (hrest ▸ hafter)).elim
    · cases hvalue'.symm.trans htaken
      exact hv'
    · cases htrap.symm.trans htaken

/-- Reading traps where a numeral stands whose digits cannot be counted, whatever follows it. -/
theorem readNumber_error_iff {c : Cursor} (hc : c.rest ≠ []) (trap : Trap) :
    (readNumber c).1 = .error trap ↔
      trap = .digitCount ∧ ∃ form rest, NumeralAt c.rest form rest ∧ form.Overflows := by
  obtain ⟨raw, -, -, hread⟩ := readNumber_eq hc
  constructor
  · intro h
    rcases hread with ⟨hraw, -⟩ | ⟨v, hv, -⟩ | ⟨trap', htrap, htake⟩
    · cases hraw.symm.trans h
    · cases hv.symm.trans h
    · cases htrap.symm.trans h
      obtain ⟨form, hat, hform⟩ := exists_numeralAt_of_takeNumber (Prod.ext htake rfl) nofun
      obtain ⟨hkind, hoverflows⟩ := NumeralForm.value?_eq_error_iff.mp hform
      exact ⟨hkind, form, _, hat, hoverflows⟩
  · rintro ⟨hkind, form, rest, hat, hoverflows⟩
    have htaken := hat.takeNumber.2.2 trap (NumeralForm.value?_eq_error_iff.mpr ⟨hkind, hoverflows⟩)
    rcases hread with ⟨-, hnone | ⟨v, hv, -⟩⟩ | ⟨v, -, hv, -⟩ | ⟨trap', htrap, htake⟩
    · cases hnone.symm.trans htaken
    · cases hv.symm.trans htaken
    · cases hv.symm.trans htaken
    · cases htake.symm.trans htaken
      exact htrap

/-- Where no numeral stands, one character is passed over. -/
theorem takeNumber_of_none {cs : List Char} (h : ∀ form rest, ¬ NumeralAt cs form rest) :
    takeNumber cs = (.ok none, cs.drop 1) := by
  have hstart : ¬ (cs.takeWhile Char.isDigit ≠ [] ∨
      (takeFraction (cs.dropWhile Char.isDigit)).1.isSome = true) := by
    intro hstart
    obtain ⟨form, rest, hat⟩ := exists_numeralAt hstart
    exact h form rest hat
  rw [not_or, not_not, Bool.not_eq_true, Option.isSome_eq_false_iff,
    Option.isNone_iff_eq_none] at hstart
  have hradix : radix? cs = none := by
    cases hr : radix? cs with
    | none => rfl
    | some found =>
      obtain ⟨r, mark, more, -, rfl, -⟩ := exists_radix_of_radix? hr
      cases hstart.1
  rw [takeNumber, hradix]
  exact takeDecimal_of_none hstart.1 hstart.2

/-- **The grammar of numeric literals.** The text at a cursor is split into what is read and what
follows, which no name goes on in. A constant is read if and only if a numeral stands there that
ends where the text was split and says that constant; reading traps if and only if a numeral of
`decimal` stands there whose digits cannot be counted; everything else is kept as it stands. Where a
numeral stands, what is read behind it are characters of names; where none does, they follow the
first character. -/
theorem readNumber_grammar {c : Cursor} (hc : c.rest ≠ []) :
    ∃ raw after, c.rest = raw ++ after ∧ (readNumber c).2 = ⟨after, c.offset + byteLength raw⟩ ∧
      StopsAt isNameChar after ∧
      (∀ v, (readNumber c).1 = .ok (.constant v) ↔
        ∃ form, NumeralAt c.rest form after ∧ form.value? = .ok (some v)) ∧
      (∀ trap, (readNumber c).1 = .error trap ↔
        trap = .digitCount ∧ ∃ form rest, NumeralAt c.rest form rest ∧ form.Overflows) ∧
      ((∀ v, (readNumber c).1 ≠ .ok (.constant v)) → (∀ trap, (readNumber c).1 ≠ .error trap) →
        (readNumber c).1 = .ok (.unresolved (String.ofList raw))) ∧
      (∀ form rest, NumeralAt c.rest form rest → after = rest.dropWhile isNameChar) ∧
      ((∀ form rest, ¬ NumeralAt c.rest form rest) → after = (c.rest.drop 1).dropWhile isNameChar) ∧
      ∀ n suffix, suffix.all Suffix.isInteger = true → NumeralAt c.rest (.whole n suffix) after →
        (readNumber c).1 = .ok
          (match wholeKind? n suffix with
          | some k => .constant (.ofInt k n)
          | none => .unresolved (String.ofList raw)) := by
  obtain ⟨raw, hraw, hcursor, hread⟩ := readNumber_eq hc
  have hafter := stopsAt_dropWhile isNameChar (takeNumber c.rest).2
  have hconstant := readNumber_constant_iff hc
  have hunresolved : (∀ v, (readNumber c).1 ≠ .ok (.constant v)) →
      (∀ trap, (readNumber c).1 ≠ .error trap) →
        (readNumber c).1 = .ok (.unresolved (String.ofList raw)) := by
    intro hnot htraps
    rcases hread with ⟨hraw, -⟩ | ⟨v, hv, -⟩ | ⟨trap, htrap, -⟩
    · exact hraw
    · exact (hnot v hv).elim
    · exact (htraps trap htrap).elim
  refine ⟨raw, _, hraw, hcursor, hafter, hconstant, readNumber_error_iff hc, hunresolved,
    fun form rest hat => hat.takeNumber.1, fun hnone => by rw [takeNumber_of_none hnone],
    fun n suffix hsuffix hat => ?_⟩
  have hform := NumeralForm.value?_whole hsuffix n
  have htaken := (hat.takeNumber.2.1 hafter).1.trans hform
  cases hkind : wholeKind? n suffix with
  | some k =>
    rw [hkind] at hform
    exact (hconstant _).mpr ⟨_, hat, hform⟩
  | none =>
    rw [hkind] at htaken
    -- what was taken is no constant, and it is no trap
    rcases hread with ⟨hraw, -⟩ | ⟨v, -, hv, -⟩ | ⟨trap, -, htrap⟩
    · exact hraw
    · cases hv.symm.trans htaken
    · cases htrap.symm.trans htaken

/-- A hexadecimal `long` in front of a parenthesis. -/
theorem readNumber_grammar_long :
    let c : Cursor := ⟨['0', 'x', 'f', 'F', 'L', ')'], 3⟩
    c.rest ≠ [] ∧ NumeralAt c.rest (.whole 255 (some .long)) [')'] ∧
      readNumber c = (.ok (.constant (.ofInt .i64 255)), ⟨[')'], 8⟩) := by
  intro c
  have hc : c.rest ≠ [] := List.cons_ne_nil _ _
  have hdigits : ∀ x ∈ ['f', 'F'], Radix.hexadecimal.isDigit x = true := List.all_eq_true.mp rfl
  have hat : NumeralAt c.rest (.whole 255 (some .long)) [')'] :=
    .radix .hexadecimal List.mem_cons_self (List.cons_ne_nil 'f' ['F']) hdigits (stopsAt_cons rfl)
      (takeSuffix_takes Suffix.isInteger ['L', ')'])
  obtain ⟨raw, after, hraw, hcursor, -, -, -, -, hrest, -, hwhole⟩ := readNumber_grammar hc
  cases hrest _ _ hat
  cases List.append_cancel_right (show ['0', 'x', 'f', 'F', 'L'] ++ [')'] = raw ++ [')'] from hraw)
  exact ⟨hc, hat, Prod.ext (hwhole 255 (some .long) rfl hat) hcursor⟩

/-- A numeral that nothing follows and that is neither read as a constant nor kept as raw text. -/
theorem uncounted_numeral_traps :
    let c := Cursor.start "1e9223372036854775807m"
    (∃ form, NumeralAt c.rest form [] ∧ form.Overflows) ∧
      (readNumber c).1 = .error .digitCount := by
  intro c
  have htake : (takeNumber c.rest).1.toOption = none ∧ (takeNumber c.rest).2 = [] := by
    decide +kernel
  obtain ⟨hnone, hrest⟩ := htake
  cases houtcome : (takeNumber c.rest).1 with
  | ok found =>
    rw [houtcome] at hnone
    cases hnone
  | error trap =>
    obtain ⟨form, hat, hform⟩ :=
      exists_numeralAt_of_takeNumber (show takeNumber c.rest = (.error trap, []) from
        Prod.ext houtcome hrest) nofun
    obtain ⟨rfl, hoverflows⟩ := NumeralForm.value?_eq_error_iff.mp hform
    exact ⟨⟨form, hat, hoverflows⟩,
      (readNumber_error_iff (List.cons_ne_nil _ _) .digitCount).mpr
      ⟨rfl, form, [], hat, hoverflows⟩⟩

end Formula
