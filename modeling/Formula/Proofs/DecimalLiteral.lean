import Formula.Proofs.DecimalRange
import Formula.Source.Literal

/-!
# Decimal literals

`Numeral` is a decimal numeral as it is written: digits, perhaps a fraction, perhaps an exponent.
Its value is defined by what it says, without a word on how it is read.

Reading it with the suffix of `decimal` gives this value to 28 fractional digits, or refuses it
(`Numeral.reads_exactly_iff`), unless the count of its whole digits leaves 64 bits. Such a numeral
stands for a number beyond all bounds, and reading it traps.
-/

namespace Formula

/-! ## Digits -/

/-- The number that digits spell, the first one counting most. -/
def spelled (digits : List (Fin 10)) : ℕ := Nat.ofDigits 10 (digits.reverse.map Fin.val)

/-- Digits as they are written. -/
def digitText (digits : List (Fin 10)) : List Char := digits.map fun d : Fin 10 => Nat.digitChar d

@[simp] theorem length_digitText (digits : List (Fin 10)) :
    (digitText digits).length = digits.length :=
  List.length_map ..

private theorem digitText_append (first last : List (Fin 10)) :
    digitText (first ++ last) = digitText first ++ digitText last :=
  List.map_append

theorem isDigit_digitChar (d : Fin 10) : (Nat.digitChar d).isDigit = true := by decide +revert

theorem digitValue_digitChar (d : Fin 10) : digitValue (Nat.digitChar d) = d := by decide +revert

private theorem spelled_append_singleton (digits : List (Fin 10)) (d : Fin 10) :
    spelled (digits ++ [d]) = spelled digits * 10 + d := by
  rw [spelled, List.reverse_append, List.reverse_singleton, List.singleton_append, List.map_cons,
    Nat.ofDigits_cons, spelled]
  ring

private theorem spelled_append (first last : List (Fin 10)) :
    spelled (first ++ last) = spelled first * 10 ^ last.length + spelled last := by
  rw [spelled, List.reverse_append, List.map_append, Nat.ofDigits_append]
  simp [spelled]
  ring

theorem digitsValue_digitText (digits : List (Fin 10)) :
    digitsValue 10 (digitText digits) = spelled digits := by
  induction digits using List.reverseRecOn with
  | nil => rfl
  | append_singleton digits d ih =>
    rw [spelled_append_singleton, ← ih, digitText, digitsValue, List.map_append, List.foldl_append]
    simp [digitsValue, digitText, digitValue_digitChar]

/-- The first character, if there is one, is not of the class `p`. -/
def StopsAt (p : Char → Bool) (rest : List Char) : Prop := ∀ x ∈ rest.head?, p x = false

theorem StopsAt.takeWhile {p : Char → Bool} {cs rest : List Char} (h : StopsAt p rest)
    (hcs : ∀ x ∈ cs, p x = true) : (cs ++ rest).takeWhile p = cs := by
  rw [List.takeWhile_append_of_pos hcs]
  cases rest with
  | nil => simp
  | cons x rest => simp [h x rfl]

theorem StopsAt.dropWhile {p : Char → Bool} {cs rest : List Char} (h : StopsAt p rest)
    (hcs : ∀ x ∈ cs, p x = true) : (cs ++ rest).dropWhile p = rest := by
  rw [List.dropWhile_append_of_pos hcs]
  cases rest with
  | nil => rfl
  | cons x rest => simp [h x rfl]

theorem isDigit_of_mem_digitText {digits : List (Fin 10)} :
    ∀ x ∈ digitText digits, x.isDigit = true := by
  simp only [digitText, List.mem_map]
  rintro _ ⟨d, -, rfl⟩
  exact isDigit_digitChar d

/-! ## Numerals -/

/-- The exponent of a numeral: a letter, perhaps a sign that may be a minus, and digits. -/
structure Exponent where
  capital : Bool
  sign : Option Bool
  digits : List (Fin 10)
  digits_ne_nil : digits ≠ []

/-- A decimal numeral. -/
structure Numeral where
  whole : List (Fin 10)
  fraction : List (Fin 10)
  exponent : Option Exponent
  digits_ne_nil : whole ++ fraction ≠ []

namespace Exponent

/-- A sign as it is written. -/
def signText : Option Bool → List Char
  | none => []
  | some negative => [if negative then '-' else '+']

/-- The exponent as it is written. -/
def text (e : Exponent) : List Char :=
  (if e.capital then 'E' else 'e') :: (signText e.sign ++ digitText e.digits)

/-- The power of ten. -/
def power (e : Exponent) : ℤ := if e.sign = some true then -spelled e.digits else spelled e.digits

end Exponent

namespace Numeral

/-- A fraction as it is written. -/
def fractionText (digits : List (Fin 10)) : List Char :=
  if digits = [] then [] else '.' :: digitText digits

/-- The exponent as it is written. -/
def exponentText (n : Numeral) : List Char := (n.exponent.map Exponent.text).getD []

/-- The numeral as it is written. -/
def text (n : Numeral) : List Char :=
  digitText n.whole ++ (fractionText n.fraction ++ n.exponentText)

/-- The power of ten that the numeral is scaled by. -/
def power (n : Numeral) : ℤ := (n.exponent.map Exponent.power).getD 0

/-- **The number that the numeral says.** -/
def value (n : Numeral) : ℚ :=
  (spelled n.whole + spelled n.fraction / 10 ^ n.fraction.length) * 10 ^ n.power

/-- All digits of the numeral as one number. -/
def mantissa (n : Numeral) : ℕ := spelled (n.whole ++ n.fraction)

/-- The numeral as a decimal, digit for digit. -/
def decimal (n : Numeral) : Decimal := ⟨n.mantissa, n.fraction.length - n.power⟩

theorem toRat_decimal (n : Numeral) : n.decimal.toRat = n.value := by
  have hmantissa : ((n.mantissa : ℤ) : ℚ) =
      (spelled n.whole + spelled n.fraction / 10 ^ n.fraction.length) * 10 ^ n.fraction.length := by
    rw [mantissa, spelled_append]
    push_cast
    field_simp
  rw [Decimal.toRat, decimal, value, hmantissa, mul_assoc, neg_sub, sub_eq_add_neg,
    zpow_add₀ (by norm_num), zpow_neg, zpow_natCast]
  field_simp

end Numeral

/-! ## Reading the parts -/

private theorem stopsAt_nil {p : Char → Bool} : StopsAt p [] := by
  rintro x hx
  cases hx

theorem stopsAt_cons {p : Char → Bool} {x : Char} {rest : List Char} (h : p x = false) :
    StopsAt p (x :: rest) := by
  rintro y hy
  cases hy
  exact h

theorem takeFraction_fractionText (digits : List (Fin 10)) {x : Char} (hdot : x ≠ '.')
    (hdigit : x.isDigit = false) (rest : List Char) :
    takeFraction (Numeral.fractionText digits ++ x :: rest) =
      (if digits = [] then none else some (digitText digits), x :: rest) := by
  cases digits with
  | nil => simp [Numeral.fractionText, takeFraction, hdot]
  | cons d digits =>
    have hstop : StopsAt Char.isDigit (x :: rest) := stopsAt_cons hdigit
    have hhead : ((digitText (d :: digits) ++ x :: rest).head?.any Char.isDigit) = true := by
      simp [digitText]
    simp only [Numeral.fractionText, reduceCtorEq, if_false, List.cons_append, takeFraction, hhead,
      true_and, if_true, hstop.takeWhile isDigit_of_mem_digitText,
      hstop.dropWhile isDigit_of_mem_digitText]

theorem takeSign_signText (sign : Option Bool) {x : Char} {rest : List Char}
    (hx : x.isDigit = true) :
    takeSign (Exponent.signText sign ++ x :: rest) = (decide (sign = some true), x :: rest) := by
  have hminus : x ≠ '-' := by rintro rfl; simp at hx
  have hplus : x ≠ '+' := by rintro rfl; simp at hx
  rcases sign with _ | _ | _ <;> simp [Exponent.signText, takeSign, hminus, hplus]

theorem takeExponent_text (e : Exponent) {rest : List Char} (hrest : StopsAt Char.isDigit rest) :
    takeExponent (e.text ++ rest) = (some e.power, rest) := by
  obtain ⟨capital, sign, digits, hne⟩ := e
  have hsign : takeSign (Exponent.signText sign ++ (digitText digits ++ rest)) =
      (decide (sign = some true), digitText digits ++ rest) := by
    obtain ⟨d, digits, rfl⟩ := List.exists_cons_of_ne_nil hne
    exact takeSign_signText sign (isDigit_digitChar d)
  have hhead : ((digitText digits ++ rest).head?.any Char.isDigit) = true := by
    obtain ⟨d, digits, rfl⟩ := List.exists_cons_of_ne_nil hne
    simp [digitText]
  simp only [Exponent.text, List.cons_append, List.append_assoc, takeExponent, hsign, hhead,
    hrest.takeWhile isDigit_of_mem_digitText, hrest.dropWhile isDigit_of_mem_digitText,
    digitsValue_digitText, Exponent.power, decide_eq_true_eq]
  cases capital <;> simp

/-- The letters of the suffix for `decimal`. -/
def IsDecimalSuffix (suffix : Char) : Prop := suffix = 'm' ∨ suffix = 'M'

namespace Numeral

variable {n : Numeral} {suffix : Char} {rest : List Char}

theorem takeExponent_exponentText (n : Numeral) (hsuffix : IsDecimalSuffix suffix) :
    takeExponent (n.exponentText ++ suffix :: rest) =
      (n.exponent.map Exponent.power, suffix :: rest) := by
  unfold exponentText
  cases n.exponent with
  | none => rcases hsuffix with rfl | rfl <;> simp [takeExponent]
  | some e =>
    refine takeExponent_text e (stopsAt_cons ?_)
    rcases hsuffix with rfl | rfl <;> rfl

/-- Behind the digits stands a letter, of an exponent or of the suffix. -/
theorem exponentText_head (n : Numeral) (hsuffix : IsDecimalSuffix suffix) (rest : List Char) :
    ∃ x more, n.exponentText ++ suffix :: rest = x :: more ∧ x ∈ ['e', 'E', 'm', 'M'] := by
  unfold exponentText
  cases n.exponent with
  | none => exact ⟨suffix, rest, rfl, by rcases hsuffix with rfl | rfl <;> simp⟩
  | some e =>
    refine ⟨_, _, rfl, ?_⟩
    cases e.capital <;> simp

theorem takeDecimal_text (n : Numeral) (hsuffix : IsDecimalSuffix suffix) (rest : List Char) :
    takeDecimal (n.text ++ suffix :: rest) =
      (decimalLiteral n.mantissa n.fraction.length n.power
        ((if n.fraction = [] then none else some (digitText n.fraction)).isSome ||
          (n.exponent.map Exponent.power).isSome) (some .decimal), rest) := by
  obtain ⟨x, more, htail, hx⟩ := n.exponentText_head hsuffix rest
  have hdot : x ≠ '.' := by rintro rfl; simp at hx
  have hdigit : x.isDigit = false := by fin_cases hx <;> rfl
  have hfraction := takeFraction_fractionText n.fraction hdot hdigit more
  have hstop : StopsAt Char.isDigit (fractionText n.fraction ++ x :: more) := by
    unfold fractionText
    split
    · exact stopsAt_cons hdigit
    · exact stopsAt_cons rfl
  have hdigits : (if n.fraction = [] then none else some (digitText n.fraction)).getD [] =
      digitText n.fraction := by
    split
    · rename_i hnil
      rw [hnil]
      rfl
    · rfl
  have hnonempty : ((digitText n.whole).isEmpty &&
      (if n.fraction = [] then none else some (digitText n.fraction)).isNone) = false := by
    have := n.digits_ne_nil
    cases hwhole : n.whole <;> cases hfrac : n.fraction <;> simp_all [digitText]
  have hsuffix? : takeSuffix (fun _ => true) (suffix :: rest) = (some .decimal, rest) := by
    rcases hsuffix with rfl | rfl <;> rfl
  rw [takeDecimal, text, List.append_assoc, List.append_assoc, htail,
    hstop.takeWhile isDigit_of_mem_digitText, hstop.dropWhile isDigit_of_mem_digitText, hfraction]
  simp only [hnonempty, Bool.false_eq_true, if_false, ← htail,
    n.takeExponent_exponentText hsuffix, hsuffix?, hdigits, decimalLiteral, ← digitText_append,
    digitsValue_digitText, length_digitText]
  rfl

/-- A numeral announces no other base. -/
theorem radix?_text (n : Numeral) (hsuffix : IsDecimalSuffix suffix) (rest : List Char) :
    radix? (n.text ++ suffix :: rest) = none := by
  have hdigit : ∀ d : Fin 10, (Nat.digitChar d).toLower ≠ 'x' ∧
      (Nat.digitChar d).toLower ≠ 'b' := by
    decide
  have hletter : ∀ x ∈ ['e', 'E', 'm', 'M'], x.toLower ≠ 'x' ∧ x.toLower ≠ 'b' := by simp
  obtain ⟨x, more, htail, hx⟩ := n.exponentText_head hsuffix rest
  have hne := n.digits_ne_nil
  rw [text, List.append_assoc, List.append_assoc, htail]
  rcases hwhole : n.whole with _ | ⟨d, _ | ⟨d', whole⟩⟩
  · cases hfraction : n.fraction with
    | nil => simp [hwhole, hfraction] at hne
    | cons f fraction => simp [digitText, fractionText, radix?]
  · cases hfraction : n.fraction with
    | nil => simp [digitText, fractionText, radix?, hletter x hx]
    | cons f fraction => simp [digitText, fractionText, radix?]
  · simp [digitText, radix?, hdigit d']

/-- The scale of the numeral is a 64-bit number. -/
def ScaleFits (n : Numeral) : Prop := -2 ^ 63 ≤ n.decimal.scale ∧ n.decimal.scale < 2 ^ 63
deriving Decidable

theorem ofDigits?_eq (n : Numeral) :
    Decimal.ofDigits? n.mantissa n.fraction.length n.power = if n.ScaleFits then
      some n.decimal else none :=
  rfl

/-- What a literal of `decimal` is brought into range as. -/
def fit? (n : Numeral) : Except Trap (Option Decimal) :=
  if n.ScaleFits then n.decimal.fit? else .ok none

/-- Reading a literal stops behind its suffix. -/
theorem readNumber_text (n : Numeral) (hsuffix : IsDecimalSuffix suffix)
    (hrest : StopsAt isNameChar rest) (offset : ℕ) :
    (readNumber ⟨n.text ++ suffix :: rest, offset⟩).2.rest = rest ∧
      (readNumber ⟨n.text ++ suffix :: rest, offset⟩).1 = n.fit?.map fun
        | some d => .constant (.decimal d)
        | none => .unresolved (String.ofList (n.text ++ [suffix])) := by
  have hafter : rest.dropWhile isNameChar = rest := hrest.dropWhile (List.forall_mem_nil _)
  have hraw : (n.text ++ suffix :: rest).take ((n.text ++ suffix :: rest).length - rest.length) =
      n.text ++ [suffix] := by
    rw [List.append_cons, List.length_append, Nat.add_sub_cancel, List.take_left]
  simp only [readNumber, takeNumber, n.radix?_text hsuffix, n.takeDecimal_text hsuffix,
    hafter, hraw, true_and, decimalLiteral, ofDigits?_eq, fit?]
  by_cases hscale : n.ScaleFits
  · simp only [if_pos hscale]
    cases n.decimal.fit? with
    | error trap => rfl
    | ok fitting => cases fitting <;> simp [Except.map]
  · simp only [if_neg hscale]
    rfl

/-! ## Literals that are read right -/

/-- The count of the whole digits of the numeral is asked for, and is no 64-bit number. -/
def Overflows (n : Numeral) : Prop := n.ScaleFits ∧ n.mantissa ≠ 0 ∧ 2 ^ 63 ≤ n.decimal.exponent
deriving Decidable

/-- The numeral, as a literal of `decimal`, is read right: no count overflows, a constant is the
number that is written, rounded to 28 places, and what is too large is refused. -/
structure ReadExactly (n : Numeral) (outcome : Except Trap Lexeme) : Prop where
  countFits : n.ScaleFits → n.mantissa ≠ 0 → n.decimal.CountFits
  rounds : ∀ d, outcome = .ok (.constant (.decimal d)) → d.toRat = roundTo 28 n.value
  refuses : 2 ^ 96 ≤ n.value → ∃ raw, outcome = .ok (.unresolved raw)

/-- An outcome that is the decimal constant of a number, or the raw text where there is none. -/
def Tells (text : List Char) (q? : Option ℚ) (outcome : Except Trap Lexeme) : Prop :=
  match q? with
  | some q => ∃ d : Decimal, d.toRat = q ∧ outcome = .ok (.constant (.decimal d))
  | none => outcome = .ok (.unresolved (String.ofList text))

/-- With a scale of 64 bits the count can only be too large. -/
theorem countFits_iff (h : n.ScaleFits) : n.decimal.CountFits ↔ ¬ 2 ^ 63 ≤ n.decimal.exponent := by
  have hscale := h.2
  have hexponent : n.decimal.exponent = digitCount n.decimal.mantissa.natAbs - n.decimal.scale :=
    rfl
  constructor
  · rintro ⟨-, hlt⟩
    exact hlt.not_ge
  · intro hlt
    exact ⟨by omega, not_le.mp hlt⟩

theorem value_nonneg (n : Numeral) : 0 ≤ n.value := by
  unfold value
  positivity

/-- A numeral whose count overflows stands for a number beyond all bounds. -/
theorem Overflows.value_ge (h : n.Overflows) : 2 ^ 96 ≤ n.value := by
  obtain ⟨-, hne, hexponent⟩ := h
  have hle := Decimal.le_abs_toRat (d := n.decimal) (Int.natCast_ne_zero.mpr hne)
  rw [toRat_decimal, abs_of_nonneg n.value_nonneg] at hle
  calc (2 : ℚ) ^ 96 ≤ 10 ^ (29 : ℤ) := by norm_num
    _ ≤ 10 ^ (n.decimal.exponent - 1) := zpow_le_zpow_right₀ (by norm_num) (by omega)
    _ ≤ n.value := hle

/-- The number that a literal is read as, if it is read. -/
def kept? (n : Numeral) : Option ℚ := if n.ScaleFits then Decimal.kept? n.value else none

theorem eq_roundTo_of_kept? {q : ℚ} (h : n.kept? = some q) : q = roundTo 28 n.value := by
  obtain ⟨-, h⟩ := Option.ite_none_right_eq_some.mp h
  obtain ⟨-, h⟩ := Option.ite_none_right_eq_some.mp h
  exact (Option.some.inj h).symm

theorem kept?_of_large (h : 2 ^ 96 ≤ n.value) : n.kept? = none := by
  rw [kept?, Decimal.kept?_of_large (h.trans (le_abs_self _)), ite_self]

/-- What is read where no count overflows: the number that is kept of the value. -/
theorem tells_readNumber (h : ¬ n.Overflows) (hsuffix : IsDecimalSuffix suffix)
    (hrest : StopsAt isNameChar rest) (offset : ℕ) :
    Tells (n.text ++ [suffix]) n.kept? (readNumber ⟨n.text ++ suffix :: rest, offset⟩).1 := by
  rw [(n.readNumber_text hsuffix hrest offset).2, fit?, kept?]
  split_ifs with hscale
  · have hcount : n.decimal.mantissa ≠ 0 → n.decimal.CountFits := fun hne =>
      (countFits_iff hscale).mpr fun hle => h ⟨hscale, Int.natCast_ne_zero.mp hne, hle⟩
    obtain ⟨o, ho, hkept⟩ := Except.map_ok (Decimal.arithmetic_lawful.map_fit? hcount)
    rw [Decimal.fit?, ho, ← toRat_decimal, ← hkept]
    cases o with
    | none => rfl
    | some d => exact ⟨d, rfl, rfl⟩
  · rfl

theorem readNumber_of_overflows (h : n.Overflows) (hsuffix : IsDecimalSuffix suffix)
    (hrest : StopsAt isNameChar rest) (offset : ℕ) :
    (readNumber ⟨n.text ++ suffix :: rest, offset⟩).1 = .error .digitCount := by
  obtain ⟨hscale, hne, hexponent⟩ := h
  have hcount : ¬ n.decimal.CountFits := (countFits_iff hscale).not_left.mpr hexponent
  have hfit : n.decimal.fit? = .error .digitCount :=
    Decimal.Arithmetic.fit?_eq_error_iff.mpr ⟨rfl, Int.natCast_ne_zero.mpr hne, hcount⟩
  rw [(n.readNumber_text hsuffix hrest offset).2, fit?, if_pos hscale, hfit]
  rfl

/-- **Decimal literals** are read right exactly if the count of their whole digits does not
overflow. Where it does, reading traps, at numerals that should be refused. -/
theorem reads_exactly_iff (n : Numeral) (hsuffix : IsDecimalSuffix suffix)
    (hrest : StopsAt isNameChar rest) (offset : ℕ) :
    let reading := readNumber ⟨n.text ++ suffix :: rest, offset⟩
    reading.2.rest = rest ∧ (n.ReadExactly reading.1 ↔ ¬ n.Overflows) ∧
      (¬ n.Overflows → Tells (n.text ++ [suffix]) n.kept? reading.1) ∧
      (n.Overflows → reading.1 = .error .digitCount ∧ 2 ^ 96 ≤ n.value) := by
  intro reading
  refine ⟨(n.readNumber_text hsuffix hrest offset).1, ⟨?_, ?_⟩,
    fun h => tells_readNumber h hsuffix hrest offset,
    fun h => ⟨readNumber_of_overflows h hsuffix hrest offset, h.value_ge⟩⟩
  · rintro ⟨hcount, -, -⟩ ⟨hscale, hne, hexponent⟩
    exact (countFits_iff hscale).mp (hcount hscale hne) hexponent
  · intro h
    have htells : Tells _ _ reading.1 := tells_readNumber h hsuffix hrest offset
    refine ⟨fun hscale hne => ?_, fun d hd => ?_, fun hlarge => ?_⟩
    · exact (countFits_iff hscale).mpr fun hexponent => h ⟨hscale, hne, hexponent⟩
    · cases hkept : n.kept? with
      | none =>
        rw [hkept] at htells
        cases hd.symm.trans htells
      | some q =>
        rw [hkept] at htells
        obtain ⟨d', rfl, hd'⟩ := htells
        cases hd.symm.trans hd'
        exact eq_roundTo_of_kept? hkept
    · rw [kept?_of_large hlarge] at htells
      exact ⟨_, htells⟩

/-- Fifteen units of the 29th place are a tie, which goes to the even digit. -/
theorem reads_exactly_iff_tie :
    let n : Numeral :=
      ⟨[1], [5], some ⟨true, some true, [2, 8], List.cons_ne_nil _ _⟩, List.cons_ne_nil _ _⟩
    let outcome := (readNumber (.start "1.5E-28m * x")).1
    outcome = .ok (.constant (.decimal ⟨2, 28⟩)) ∧ n.ReadExactly outcome := by
  intro n outcome
  have hstart : Cursor.start "1.5E-28m * x" = ⟨n.text ++ 'm' :: ' ' :: "* x".toList, 0⟩ := rfl
  have hrest : StopsAt isNameChar (' ' :: "* x".toList) := stopsAt_cons rfl
  have hfit : n.fit? = .ok (some ⟨2, 28⟩) := Except.toOption_eq_some (by decide +kernel)
  obtain ⟨-, hexact, -, -⟩ := n.reads_exactly_iff (.inl rfl) hrest 0
  rw [← hstart] at hexact
  refine ⟨?_, hexact.mpr (by decide +kernel)⟩
  have houtcome := (n.readNumber_text (.inl rfl) hrest 0).2
  rw [← hstart, hfit] at houtcome
  exact houtcome

/-- One with the largest exponent should be refused, and traps. -/
theorem largest_exponent_traps :
    let n : Numeral :=
      ⟨[1], [], some ⟨false, none, [9, 2, 2, 3, 3, 7, 2, 0, 3, 6, 8, 5, 4, 7, 7, 5, 8, 0, 7],
        List.cons_ne_nil _ _⟩, List.cons_ne_nil _ _⟩
    n.text ++ ['m'] = "1e9223372036854775807m".toList ∧ 2 ^ 96 ≤ n.value ∧
      (readNumber (.start "1e9223372036854775807m")).1 = .error .digitCount := by
  intro n
  have htext : n.text ++ ['m'] = "1e9223372036854775807m".toList := rfl
  have hoverflows : n.Overflows := by decide +kernel
  refine ⟨htext, hoverflows.value_ge, ?_⟩
  rw [Cursor.start, ← htext]
  exact readNumber_of_overflows hoverflows (.inl rfl) stopsAt_nil 0

end Numeral

end Formula
