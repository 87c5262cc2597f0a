import Formula.Proofs.DecimalLiteral
import Formula.Proofs.ReadingAlike

/-!
# Tokens

What is read from a text that starts with a token, whatever stands behind it: names, integer
numerals, operators, and parentheses around a list of elements. Blanks in front of a token do not
count.

A name or a numeral goes on for as long as it can. It ends where nothing follows, or one of the
`delimiters`: a blank, an operator, or what ends a list of elements.
-/

namespace Formula

/-! ## Repetition -/

theorem many_of_none {ε σ α : Type} {size : σ → Nat} {step : σ → Except ε (Option (α × σ))} {s : σ}
    (h : step s = .ok none) : many size step s = .ok ([], s) := by
  rw [many_eq, h]
  rfl

/-- What repetition finds, apart from its first step. -/
theorem Probing.Forward.many_uncons {α : Type} {step : Probing α} (hf : step.Forward)
    {r s t : Reader} {a : α} {as : List α} (h : step r = .ok (some (a, s)))
    (hr : Formula.many Reader.size step r = .ok (as, t)) :
    ∃ rest, as = a :: rest ∧ Formula.many Reader.size step s = .ok (rest, t) := by
  have hlt : s.size < r.size := (hf r a s h).2
  rw [many_eq, h] at hr
  replace hr : (if s.size < r.size then _ else _) = _ := hr
  rw [if_pos hlt] at hr
  obtain ⟨⟨rest, u⟩, hrest, he⟩ := Except.bind_ok hr
  cases he
  exact ⟨rest, rfl, hrest⟩

/-! ## Where tokens end -/

/-- The blanks, the operators, and the characters that end a list of elements. -/
def delimiters : List Char :=
  [' ', '\t', '\n', '\x0c', '\r', '+', '-', '*', '/', '%', '^', '|', ')', ']', '\x7d', ',']

/-- The text is empty or starts with a delimiter. -/
def Delimited (more : List Char) : Prop := ∀ x ∈ more.head?, x ∈ delimiters

theorem Delimited.nil : Delimited [] := by
  rintro x hx
  cases hx

theorem Delimited.cons {x : Char} (hx : x ∈ delimiters) (more : List Char) :
    Delimited (x :: more) := by
  rintro y hy
  cases hy
  exact hx

theorem Delimited.stopsAt {p : Char → Bool} {more : List Char} (h : Delimited more)
    (hp : delimiters.any p = false) : StopsAt p more :=
  fun x hx => Bool.eq_false_iff.mpr (List.any_eq_false.mp hp x (h x hx))

theorem mem_delimiters_of_isBlank {x : Char} (h : isBlank x = true) : x ∈ delimiters := by
  simp only [isBlank, Bool.or_eq_true, decide_eq_true_eq] at h
  rcases h with (((rfl | rfl) | rfl) | rfl) | rfl <;> decide

theorem mem_delimiters_of_endsElements {x : Char} (h : endsElements x = true) : x ∈ delimiters := by
  simp only [endsElements, Bool.or_eq_true, decide_eq_true_eq] at h
  rcases h with ((rfl | rfl) | rfl) | rfl <;> decide

theorem not_mem_delimiters {p : Char → Bool} (hp : delimiters.any p = false) {x : Char}
    (hx : p x = true) : x ∉ delimiters := fun hmem => List.any_eq_false.mp hp x hmem hx

/-- A text of blanks. -/
def Blank (cs : List Char) : Prop := ∀ x ∈ cs, isBlank x = true

theorem Delimited.blank {blanks more : List Char} (hblanks : Blank blanks) (h : Delimited more) :
    Delimited (blanks ++ more) := by
  cases blanks with
  | nil => exact h
  | cons x blanks => exact .cons (mem_delimiters_of_isBlank (hblanks x List.mem_cons_self)) _

/-! ## Blanks -/

theorem Cursor.skipBlanks_append {blanks : List Char} (h : Blank blanks) (cs : List Char)
    (offset : Nat) : Cursor.skipBlanks ⟨blanks ++ cs, offset⟩ =
      Cursor.skipBlanks ⟨cs, offset + byteLength blanks⟩ := by
  simp only [Cursor.skipBlanks, Cursor.span, List.takeWhile_append_of_pos h,
    List.dropWhile_append_of_pos h, byteLength_append, Nat.add_assoc]

theorem Cursor.skipBlanks_of_stops {cs : List Char} (h : StopsAt isBlank cs) (offset : Nat) :
    Cursor.skipBlanks ⟨cs, offset⟩ = ⟨cs, offset⟩ := by
  have hnil : ∀ x ∈ ([] : List Char), isBlank x = true := by simp
  have htake := h.takeWhile hnil
  have hdrop := h.dropWhile hnil
  rw [List.nil_append] at htake hdrop
  simp only [Cursor.skipBlanks, Cursor.span, htake, hdrop]
  rfl

/-- Blanks in front of an element are passed over. -/
theorem readElement_blanks (level : Level) {blanks : List Char} (h : Blank blanks) (cs : List Char)
    (offset k : Nat) : readElement level ⟨⟨blanks ++ cs, offset⟩, k⟩ =
      readElement level ⟨⟨cs, offset + byteLength blanks⟩, k⟩ := by
  simp only [readElement, Reader.skipBlanks, Cursor.skipBlanks_append h]

/-- A character that is no blank and ends no list starts an element. -/
theorem readElement_cons (level : Level) {x : Char} (hblank : isBlank x = false)
    (hends : endsElements x = false) (cs : List Char) (offset k : Nat) :
    readElement level ⟨⟨x :: cs, offset⟩, k⟩ =
      (readElementAt level x ⟨⟨x :: cs, offset⟩, k⟩).map some := by
  simp only [readElement, Reader.skipBlanks, Cursor.skipBlanks_of_stops (stopsAt_cons hblank)]
  show (if endsElements x then _ else _) = _
  rw [hends]
  rfl

/-- An element starts with any character that is no delimiter. -/
theorem readElement_start (level : Level) {x : Char} (hx : x ∉ delimiters) (cs : List Char)
    (offset k : Nat) : readElement level ⟨⟨x :: cs, offset⟩, k⟩ =
      (readElementAt level x ⟨⟨x :: cs, offset⟩, k⟩).map some :=
  readElement_cons level (Bool.eq_false_iff.mpr fun h => hx (mem_delimiters_of_isBlank h))
    (Bool.eq_false_iff.mpr fun h => hx (mem_delimiters_of_endsElements h)) cs offset k

/-! ## Operators -/

theorem readElement_operator (level : Level) {x : Char} {op : Operator}
    (hop : Operator.ofChar? x = some op) (cs : List Char) (offset k : Nat) :
    readElement level ⟨⟨x :: cs, offset⟩, k⟩ =
      .ok (some (.operator ⟨k, offset⟩ op, ⟨⟨cs, offset + x.utf8Size⟩, k + 1⟩)) := by
  have hx : x = op.symbol := by
    unfold Operator.ofChar? at hop
    split at hop <;> cases hop <;> rfl
  subst hx
  rcases op with (_ | _ | _ | _ | _ | _) | _ <;> exact readElement_cons level rfl rfl cs offset k

/-! ## Names -/

theorem isDigit_of_isNameStart {x : Char} (h : isNameStart x = true) : x.isDigit = false := by
  -- Letters stand behind the digits, capitals first.
  have hbehind : ∀ low : UInt32, 58 ≤ low.toNat → low ≤ x.val → x.isDigit = false := by
    intro low hlow hx
    refine Bool.eq_false_iff.mpr fun hdigit => ?_
    have hhigh : x.val ≤ 57 := of_decide_eq_true ((Bool.and_eq_true _ _).mp hdigit).2
    have hle := Nat.le_trans (UInt32.le_iff_toNat_le.mp hx) (UInt32.le_iff_toNat_le.mp hhigh)
    exact absurd (Nat.le_trans hlow hle) (by decide)
  rcases (Bool.or_eq_true _ _).mp h with halpha | hunderscore
  · rcases (Bool.or_eq_true _ _).mp halpha with hupper | hlower
    · have hrange : 65 ≤ x.val ∧ x.val ≤ 90 := of_decide_eq_true hupper
      exact hbehind 65 (by decide) hrange.1
    · have hlow : 97 ≤ x.val := of_decide_eq_true ((Bool.and_eq_true _ _).mp hlower).1
      exact hbehind 97 (by decide) hlow
  · rw [of_decide_eq_true hunderscore]
    rfl

theorem Delimited.sees {more : List Char} (h : Delimited more) {x : Char} (hx : x ∉ delimiters)
    (offset : Nat) : Cursor.sees ⟨more, offset⟩ x = false := by
  refine decide_eq_false fun hsees => hx (h x ?_)
  exact hsees

theorem Delimited.seesDotName {more : List Char} (h : Delimited more) (offset : Nat) :
    Cursor.seesDotName ⟨more, offset⟩ = false := by
  have hdot : ∀ x ∈ more.head?, x ≠ '.' := by
    rintro x hx rfl
    exact absurd (h _ hx) (by decide)
  match more, hdot with
  | [], _ => rfl
  | [x], _ => rfl
  | x :: y :: rest, hdot => simp [Cursor.seesDotName, hdot x rfl]

theorem typeArguments?_of_delimited {more : List Char} (h : Delimited more)
    (limit room offset : Nat) :
    typeArguments? limit room ⟨more, offset⟩ = .ok (none, ⟨more, offset⟩) := by
  rw [typeArguments?, h.sees (by decide)]
  rfl

theorem readIndexer_eq_none {level : Level} {r : Reader} (h : r.sees '[' = false) :
    readIndexer level r = .ok none := by
  rw [readIndexer, h]
  rfl

theorem readNextSegments_eq_none {level : Level} {r : Reader} (h : r.cursor.seesDotName = false) :
    readNextSegments level r = .ok none := by
  rw [readNextSegments, h]
  rfl

section

variable (limit room : Nat) {cs more : List Char} (offset k : Nat)

/-- A name alone is a route of one member. -/
theorem readRoute_name (h : IsName cs) (hmore : Delimited more) :
    readRoute (levelAt limit room) ⟨⟨cs ++ more, offset⟩, k⟩ =
      .ok (.route ⟨k + 1, offset⟩ .scope [.member ⟨k, offset⟩ (String.ofList cs) []],
        ⟨⟨more, offset + byteLength cs⟩, k + 2⟩) := by
  have hspan :
      Cursor.span isNameChar ⟨cs ++ more, offset⟩ = (cs, ⟨more, offset + byteLength cs⟩) := by
    have hstop : StopsAt isNameChar more := hmore.stopsAt rfl
    simp only [Cursor.span, hstop.takeWhile h.chars, hstop.dropWhile h.chars]
  have hnamed : readNamed (levelAt limit room) ⟨⟨cs ++ more, offset⟩, k⟩ =
      .ok (.member ⟨k, offset⟩ (String.ofList cs) [], ⟨⟨more, offset + byteLength cs⟩, k + 1⟩) := by
    simp only [readNamed, hspan, levelAt_typeArguments, typeArguments?_of_delimited hmore]
    show (if Cursor.sees ⟨more, offset + byteLength cs⟩ '(' then _ else _) = _
    rw [hmore.sees (by decide)]
    rfl
  have hindexers : many Reader.size (readIndexer (levelAt limit room))
      ⟨⟨more, offset + byteLength cs⟩, k + 1⟩ = .ok ([], ⟨⟨more, offset + byteLength cs⟩, k + 1⟩) :=
    many_of_none (readIndexer_eq_none (hmore.sees (show '[' ∉ delimiters by decide) _))
  have hsegments : many Reader.size (readNextSegments (levelAt limit room))
      ⟨⟨more, offset + byteLength cs⟩, k + 1⟩ = .ok ([], ⟨⟨more, offset + byteLength cs⟩, k + 1⟩) :=
    many_of_none (readNextSegments_eq_none (hmore.seesDotName _))
  simp only [readRoute, readSegments, hnamed, bind, Except.bind, hindexers, hsegments]
  rfl

/-- Where a name starts, a route does. -/
theorem readElement_nameStart (level : Level) {x : Char} (hx : isNameStart x = true)
    (cs : List Char) :
    readElement level ⟨⟨x :: cs, offset⟩, k⟩ =
      (readRoute level ⟨⟨x :: cs, offset⟩, k⟩).map some := by
  have hne : ∀ {y : Char}, isNameStart y = false → x ≠ y := by
    rintro y hy rfl
    rw [hx] at hy
    cases hy
  rw [readElement_start _ (not_mem_delimiters (p := isNameStart) rfl hx), readElementAt,
    if_neg (hne (by decide)), if_neg (hne (by decide)), isDigit_of_isNameStart hx,
    decide_eq_false (hne (by decide)), if_neg (by simp), if_pos hx]

theorem readElement_name (h : IsName cs) (hmore : Delimited more) :
    readElement (levelAt limit room) ⟨⟨cs ++ more, offset⟩, k⟩ =
      .ok (some (.route ⟨k + 1, offset⟩ .scope [.member ⟨k, offset⟩ (String.ofList cs) []],
        ⟨⟨more, offset + byteLength cs⟩, k + 2⟩)) := by
  have hroute := readRoute_name limit room offset k h hmore
  obtain ⟨x, rest, rfl, hx⟩ := h.start
  rw [List.cons_append] at hroute ⊢
  rw [readElement_nameStart offset k _ hx, hroute]
  rfl

end

/-! ## Numerals -/

/-- The number that digits spell in a base, the first one counting most. -/
def spelledIn (base : Nat) (digits : List Char) : Nat :=
  Nat.ofDigits base (digits.reverse.map digitValue)

theorem digitsValue_eq_spelledIn (base : Nat) (digits : List Char) :
    digitsValue base digits = spelledIn base digits := by
  induction digits using List.reverseRecOn with
  | nil => rfl
  | append_singleton digits x ih =>
    rw [spelledIn, List.reverse_append, List.reverse_singleton,
      List.singleton_append, List.map_cons, Nat.ofDigits_cons, ← spelledIn, ← ih, digitsValue,
      List.foldl_append]
    show digitsValue base digits * base + digitValue x = _
    rw [Nat.mul_comm, Nat.add_comm]

/-- The text is an integer numeral without a suffix and spells a number. -/
inductive IsNumeral : List Char → Nat → Prop
  | decimal {digits : List Char} (hne : digits ≠ []) (h : ∀ x ∈ digits, x.isDigit = true) :
    IsNumeral digits (spelledIn 10 digits)
  | hex {mark : Char} {digits : List Char} (hmark : mark = 'x' ∨ mark = 'X') (hne : digits ≠ [])
      (h : ∀ x ∈ digits, isHexDigit x = true) :
    IsNumeral ('0' :: mark :: digits) (spelledIn 16 digits)
  | binary {mark : Char} {digits : List Char} (hmark : mark = 'b' ∨ mark = 'B') (hne : digits ≠ [])
      (h : ∀ x ∈ digits, isBinaryDigit x = true) :
    IsNumeral ('0' :: mark :: digits) (spelledIn 2 digits)

theorem IsNumeral.start {cs : List Char} {n : Nat} (h : IsNumeral cs n) :
    ∃ x rest, cs = x :: rest ∧ x.isDigit = true := by
  cases h with
  | decimal hne h =>
    obtain ⟨x, rest, rfl⟩ := List.exists_cons_of_ne_nil hne
    exact ⟨x, rest, rfl, h x List.mem_cons_self⟩
  | hex => exact ⟨'0', _, rfl, rfl⟩
  | binary => exact ⟨'0', _, rfl, rfl⟩

theorem takeSuffix_of_delimited {more : List Char} (h : Delimited more) (allowed : Suffix → Bool) :
    takeSuffix allowed more = (none, more) := by
  cases more with
  | nil => rfl
  | cons x more =>
    have hnone : Suffix.ofChar? x = none := by
      have hstop := h.stopsAt (p := fun x => (Suffix.ofChar? x).isSome) rfl x rfl
      simpa using hstop
    simp only [takeSuffix, hnone]

theorem takeRadix_digits {isDigit : Char → Bool} (hdelimiters : delimiters.any isDigit = false)
    {base : Nat} {digits more : List Char} (hne : digits ≠ []) (h : ∀ x ∈ digits, isDigit x = true)
    (hmore : Delimited more) (hfits : IntKind.u64.holds (spelledIn base digits) = true) :
    takeRadix base isDigit (digits ++ more) =
      (integerLiteral (spelledIn base digits) none, more) := by
  have hstop := hmore.stopsAt hdelimiters
  have hempty : digits.isEmpty = false := by simpa using hne
  simp only [takeRadix, hstop.takeWhile h, hstop.dropWhile h, digitsValue_eq_spelledIn,
    hempty, hfits, takeSuffix_of_delimited hmore]
  rfl

theorem takeFraction_of_delimited {more : List Char} (h : Delimited more) :
    takeFraction more = (none, more) := by
  cases more with
  | nil => rfl
  | cons x more =>
    have hdot : x ≠ '.' := by
      rintro rfl
      exact absurd (h _ rfl) (by decide)
    simp [takeFraction, hdot]

theorem takeExponent_of_delimited {more : List Char} (h : Delimited more) :
    takeExponent more = (none, more) := by
  cases more with
  | nil => rfl
  | cons x more =>
    have hmark : ¬ (x = 'e' ∨ x = 'E') := by
      rintro (rfl | rfl) <;> exact absurd (h _ rfl) (by decide)
    simp [takeExponent, hmark]

theorem takeDecimal_digits {digits more : List Char} (hne : digits ≠ [])
    (h : ∀ x ∈ digits, x.isDigit = true) (hmore : Delimited more) :
    takeDecimal (digits ++ more) = (.ok (integerLiteral (spelledIn 10 digits) none), more) := by
  have hstop : StopsAt Char.isDigit more := hmore.stopsAt rfl
  have hempty : digits.isEmpty = false := by simpa using hne
  simp only [takeDecimal, hstop.takeWhile h, hstop.dropWhile h, takeFraction_of_delimited hmore,
    takeExponent_of_delimited hmore, takeSuffix_of_delimited hmore, hempty, Option.getD_none,
    List.append_nil, digitsValue_eq_spelledIn]
  rfl

private theorem toLower_of_isDigit {x : Char} (h : x.isDigit = true) : x.toLower = x := by
  have hupper : ¬ (x.val ≥ 'A'.val ∧ x.val ≤ 'Z'.val) := by
    simp only [Char.isDigit, Bool.and_eq_true, decide_eq_true_eq, ge_iff_le,
      UInt32.le_iff_toNat_le] at h ⊢
    have := h.2
    simp at this ⊢
    omega
  unfold Char.toLower
  rw [dif_neg hupper]

/-- Digits of base ten announce no other base. -/
theorem radix?_digits {digits more : List Char} (hne : digits ≠ [])
    (h : ∀ x ∈ digits, x.isDigit = true) (hmore : Delimited more) :
    radix? (digits ++ more) = none := by
  have hsecond : ∀ x, x.isDigit = true ∨ x ∈ delimiters → x.toLower ≠ 'x' ∧ x.toLower ≠ 'b' := by
    rintro x (hx | hx)
    · rw [toLower_of_isDigit hx]
      constructor <;> rintro rfl <;> exact absurd hx (by decide)
    · have hlower := List.any_eq_false.mp
        (show delimiters.any (fun x => x.toLower == 'x' || x.toLower == 'b') = false from rfl) x hx
      simpa using hlower
  obtain ⟨d, digits, rfl⟩ := List.exists_cons_of_ne_nil hne
  cases digits with
  | nil =>
    cases more with
    | nil => rfl
    | cons x more => simp [radix?, hsecond x (.inr (hmore x rfl))]
  | cons d' digits => simp [radix?, hsecond d' (.inl (h d' (by simp)))]

theorem takeNumber_numeral {cs more : List Char} {n : Nat} (h : IsNumeral cs n)
    (hmore : Delimited more) (hfits : IntKind.u64.holds n = true) :
    takeNumber (cs ++ more) = (.ok (integerLiteral n none), more) := by
  cases h with
  | decimal hne h =>
    simp only [takeNumber, radix?_digits hne h hmore, takeDecimal_digits hne h hmore]
  | @hex mark digits hmark hne h =>
    have hradix : radix? ('0' :: mark :: digits ++ more) = some (16, isHexDigit) := by
      rcases hmark with rfl | rfl <;> rfl
    have hdigits := takeRadix_digits rfl hne h hmore hfits
    simp only [takeNumber, hradix]
    simp only [List.cons_append, List.drop_succ_cons, List.drop_zero, hdigits]
  | @binary mark digits hmark hne h =>
    have hradix : radix? ('0' :: mark :: digits ++ more) = some (2, isBinaryDigit) := by
      rcases hmark with rfl | rfl <;> rfl
    have hdigits := takeRadix_digits rfl hne h hmore hfits
    simp only [takeNumber, hradix]
    simp only [List.cons_append, List.drop_succ_cons, List.drop_zero, hdigits]

private theorem integerLiteral_i32 {n : Nat} (h : IntKind.i32.holds n = true) :
    integerLiteral n none = some (.ofInt .i32 n) := by
  simp [integerLiteral, h]

/-- A numeral below `2 ^ 31` is a constant of the kind `i32`. -/
theorem readNumber_numeral {cs more : List Char} {n : Nat} (h : IsNumeral cs n)
    (hmore : Delimited more) (hn : IntKind.i32.holds n = true) (offset : Nat) :
    readNumber ⟨cs ++ more, offset⟩ =
      (.ok (.constant (.ofInt .i32 n)), ⟨more, offset + byteLength cs⟩) := by
  have hfits : IntKind.u64.holds n = true := by
    have hhigh : IntKind.i32.highest ≤ IntKind.u64.highest := by decide
    simp only [IntKind.holds, Bool.and_eq_true, decide_eq_true_eq] at hn ⊢
    exact ⟨Int.natCast_nonneg n, hn.2.trans hhigh⟩
  have hnil : ∀ x ∈ ([] : List Char), isNameChar x = true := by simp
  have hafter : more.dropWhile isNameChar = more := (hmore.stopsAt rfl).dropWhile hnil
  simp only [readNumber, takeNumber_numeral h hmore hfits, integerLiteral_i32 hn,
    Except.map, hafter, if_true, List.length_append, Nat.add_sub_cancel, List.take_left]

theorem readElement_numeral (level : Level) {cs more : List Char} {n : Nat} (h : IsNumeral cs n)
    (hmore : Delimited more) (hn : IntKind.i32.holds n = true) (offset k : Nat) :
    readElement level ⟨⟨cs ++ more, offset⟩, k⟩ =
      .ok
        (some (.constant ⟨k, offset⟩ (.ofInt .i32 n),
          ⟨⟨more, offset + byteLength cs⟩, k + 1⟩)) := by
  have hnumber := readNumber_numeral h hmore hn offset
  obtain ⟨x, rest, rfl, hx⟩ := h.start
  have hne : ∀ {y : Char}, y.isDigit = false → x ≠ y := by
    rintro y hy rfl
    rw [hx] at hy
    cases hy
  rw [List.cons_append] at hnumber ⊢
  rw [readElement_start _ (not_mem_delimiters (p := Char.isDigit) rfl hx), readElementAt,
    if_neg (hne (by decide)), if_neg (hne (by decide)), hx, if_pos (by simp), hnumber]
  rfl

/-! ## Parentheses -/

/-- What stands between parentheses is read one level further in, up to the closing one. -/
theorem readElement_parentheses {limit room : Nat} {cs : List Char} {offset k : Nat}
    {found : Option (Node × Reader)}
    (h : readElement (levelAt limit room) ⟨⟨'(' :: cs, offset⟩, k⟩ = .ok found) :
    ∃ inner items r,
      many Reader.size (readElement (levelAt limit inner)) ⟨⟨cs, offset + 1⟩, k⟩ = .ok (items, r) ∧
        r.skipBlanks.sees ')' = true ∧
        found = some (.block (r.skipBlanks.mark offset) items,
          r.skipBlanks.made r.skipBlanks.next.cursor) := by
  rw [readElement_start _ (by decide)] at h
  obtain ⟨⟨n, s⟩, hread, rfl⟩ := Except.map_ok h
  simp only [readElementAt, if_true, readParentheses] at hread
  obtain ⟨inner, henter, hinner⟩ := Except.bind_ok hread
  obtain ⟨⟨items, r⟩, hitems, hclose⟩ := Except.bind_ok hinner
  cases room with
  | zero => cases henter
  | succ room =>
    cases henter
    rw [readElements_eq] at hitems
    refine ⟨room, items, r, hitems, ?_⟩
    simp only at hclose
    split at hclose
    · cases hclose
    · rename_i hsees
      split at hclose
      · cases hclose
      · cases hclose
        exact ⟨by simpa using hsees, rfl⟩

/-! ## Texts in front of others -/

/-- The elements of the text `cs` are read first and have `Q`, whatever is read behind it. -/
def Reads (cs : List Char) (Q : List Node → Prop) : Prop :=
  ∀ limit room more offset count items r, Delimited more →
    many Reader.size (readElement (levelAt limit room)) ⟨⟨cs ++ more, offset⟩, count⟩ =
    .ok (items, r) →
      ∃ front rest offset' count', items = front ++ rest ∧ Q front ∧
        many Reader.size (readElement (levelAt limit room)) ⟨⟨more, offset'⟩, count'⟩ =
        .ok (rest, r)

namespace Reads

variable {cs ds blanks : List Char} {Q Q' : List Node → Prop}

theorem mono (h : Reads cs Q) (hQ : ∀ ns, Q ns → Q' ns) : Reads cs Q' := by
  intro limit room more offset count items r hmore hread
  obtain ⟨front, rest, offset', count', hitems, hfront, hrest⟩ :=
    h limit room more offset count items r hmore hread
  exact ⟨front, rest, offset', count', hitems, hQ front hfront, hrest⟩

/-- A text that is read as one element, if it is read at all. -/
theorem element {P : Node → Prop}
    (h : ∀ limit room more offset count found, Delimited more →
      readElement (levelAt limit room) ⟨⟨cs ++ more, offset⟩, count⟩ = .ok found →
        ∃ n offset' count', found = some (n, ⟨⟨more, offset'⟩, count'⟩) ∧ P n) :
    Reads cs fun ns => ∃ n, ns = [n] ∧ P n := by
  intro limit room more offset count items r hmore hread
  obtain ⟨found, hfound, -⟩ := Except.bind_ok (many_eq _ _ _ ▸ hread)
  obtain ⟨n, offset', count', rfl, hn⟩ := h limit room more offset count found hmore hfound
  obtain ⟨rest, rfl, hrest⟩ := (levelAt_forward limit room).readElement.many_uncons hfound hread
  exact ⟨[n], rest, offset', count', rfl, ⟨n, rfl, hn⟩, hrest⟩

theorem append (h : Reads cs Q) (h' : Reads ds Q')
    (hds : ∀ more, Delimited more → Delimited (ds ++ more)) :
    Reads (cs ++ ds) fun ns => ∃ front back, ns = front ++ back ∧ Q front ∧ Q' back := by
  intro limit room more offset count items r hmore hread
  rw [List.append_assoc] at hread
  obtain ⟨front, rest, offset', count', rfl, hfront, hrest⟩ :=
    h limit room _ _ _ _ _ (hds more hmore) hread
  obtain ⟨back, rest', offset₂, count₂, rfl, hback, hrest'⟩ := h' limit room _ _ _ _ _ hmore hrest
  exact ⟨front ++ back, rest', offset₂, count₂, by simp, ⟨front, back, rfl, hfront, hback⟩, hrest'⟩

/-- An operator in front of a text. -/
theorem operator {x : Char} {op : Operator} (h : Reads cs Q) (hblanks : Blank blanks)
    (hop : Operator.ofChar? x = some op) :
    Reads (blanks ++ x :: cs) fun ns => ∃ mark back, ns = .operator mark op :: back ∧ Q back := by
  intro limit room more offset count items r hmore hread
  rw [List.append_assoc, List.cons_append] at hread
  have helement :=
    readElement_operator (levelAt limit room) hop (cs ++ more) (offset + byteLength blanks) count
  rw [← readElement_blanks _ hblanks] at helement
  obtain ⟨rest, rfl, hrest⟩ := (levelAt_forward limit room).readElement.many_uncons helement hread
  obtain ⟨back, rest', offset', count', rfl, hback, hrest'⟩ := h limit room _ _ _ _ _ hmore hrest
  exact ⟨_ :: back, rest', offset', count', rfl, ⟨_, back, rfl, hback⟩, hrest'⟩

end Reads

theorem delimited_operator {blanks : List Char} {x : Char} (hblanks : Blank blanks)
    (hx : x ∈ delimiters) (cs more : List Char) : Delimited (blanks ++ x :: cs ++ more) := by
  rw [List.append_assoc]
  exact .blank hblanks (.cons hx _)

/-- Nothing more is read before a closing parenthesis. -/
theorem many_closing {blanks : List Char} (hblanks : Blank blanks) (level : Level)
    (more : List Char) (offset count : Nat) :
    many Reader.size (readElement level) ⟨⟨blanks ++ ')' :: more, offset⟩, count⟩ =
      .ok ([], ⟨⟨blanks ++ ')' :: more, offset⟩, count⟩) := by
  refine many_of_none ?_
  rw [readElement_blanks _ hblanks]
  rfl

/-- What is read between parentheses becomes a block. -/
theorem Reads.parentheses {cs blanks blanks' : List Char} {Q : List Node → Prop} (h : Reads cs Q)
    (hblanks : Blank blanks) (hblanks' : Blank blanks') :
    Reads (blanks ++ '(' :: (cs ++ (blanks' ++ [')']))) fun ns =>
      ∃ n, ns = [n] ∧ ∃ mark items, n = .block mark items ∧ Q items := by
  refine Reads.element fun limit room more offset count found hmore hread => ?_
  rw [List.append_assoc, readElement_blanks _ hblanks, List.cons_append] at hread
  obtain ⟨inner, items, r, hitems, -, rfl⟩ := readElement_parentheses hread
  rw [List.append_assoc, List.append_assoc, List.singleton_append] at hitems
  obtain ⟨front, rest, offset', count', rfl, hfront, hrest⟩ :=
    h limit inner _ _ _ _ _ (.blank hblanks' (.cons (by decide) _)) hitems
  rw [many_closing hblanks'] at hrest
  cases hrest
  have hskip : Cursor.skipBlanks ⟨blanks' ++ ')' :: more, offset'⟩ =
      ⟨')' :: more, offset' + byteLength blanks'⟩ := by
    rw [Cursor.skipBlanks_append hblanks']
    rfl
  rw [List.append_nil, Reader.skipBlanks, hskip]
  exact ⟨_, _, _, rfl, _, _, rfl, hfront⟩

end Formula
