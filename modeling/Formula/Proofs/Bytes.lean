import Formula.Node.Read

/-!
# Texts as bytes

A text can be walked byte by byte. `bytesOf cs` are the bytes of a text in UTF-8, each as the
character of that number. A character of ASCII is its own byte, and no byte of any other character
is one of ASCII. So a class that holds all characters outside ASCII or none of them cuts the same
runs out of the bytes as out of the text (`takeWhile_bytesOf`), and numerals are read in the same
way (`takeNumber_bytesOf`).
-/

namespace Formula

/-- The characters of ASCII, which are one byte each in UTF-8. -/
def IsAscii (c : Char) : Prop := c.toNat < 128

instance (c : Char) : Decidable (IsAscii c) := inferInstanceAs (Decidable (c.toNat < 128))

/-- The bytes of a character, as characters. -/
def byteChars (c : Char) : List Char := (String.utf8EncodeChar c).map Char.ofUInt8

/-- The bytes of a text, as characters. -/
def bytesOf (cs : List Char) : List Char := cs.flatMap byteChars

theorem toNat_ofUInt8 {n : Nat} (h : n < 256) : (Char.ofUInt8 (UInt8.ofNat n)).toNat = n := by
  show (UInt8.ofNat n).toUInt32.toNat = n
  rw [UInt8.toNat_toUInt32, UInt8.toNat_ofNat', Nat.mod_eq_of_lt h]

theorem isAscii_of_all {cs : List Char} (h : cs.all (IsAscii ·) = true) : ∀ c ∈ cs, IsAscii c :=
  fun c hc => of_decide_eq_true (List.all_eq_true.mp h c hc)

theorem byteChars_of_isAscii {c : Char} (h : IsAscii c) : byteChars c = [c] := by
  have hv : c.val.toNat ≤ 127 := Nat.le_of_lt_succ h
  unfold byteChars String.utf8EncodeChar
  simp only [if_pos hv, List.map_cons, List.map_nil, List.cons.injEq, and_true]
  exact Char.toNat_inj.mp (toNat_ofUInt8 (by omega))

private theorem not_isAscii_ofUInt8 {n : Nat} (hlow : 128 ≤ n) (hhigh : n < 256) :
    ¬ IsAscii (Char.ofUInt8 (UInt8.ofNat n)) := by
  unfold IsAscii
  rw [toNat_ofUInt8 hhigh]
  omega

/-- No byte of a character outside ASCII is a character of ASCII. -/
theorem not_isAscii_of_mem_byteChars {c : Char} (h : ¬ IsAscii c) :
    ∀ b ∈ byteChars c, ¬ IsAscii b := by
  have hv : ¬ c.val.toNat ≤ 127 := fun hle => h (Nat.lt_succ_of_le hle)
  unfold byteChars String.utf8EncodeChar
  simp only [if_neg hv]
  split
  · simp only [List.map_cons, List.map_nil, List.forall_mem_cons]
    exact ⟨not_isAscii_ofUInt8 (by omega) (by omega),
      not_isAscii_ofUInt8 (by omega) (by omega), by simp⟩
  · split
    · simp only [List.map_cons, List.map_nil, List.forall_mem_cons]
      exact ⟨not_isAscii_ofUInt8 (by omega) (by omega), not_isAscii_ofUInt8 (by omega) (by omega),
        not_isAscii_ofUInt8 (by omega) (by omega), by simp⟩
    · simp only [List.map_cons, List.map_nil, List.forall_mem_cons]
      exact ⟨not_isAscii_ofUInt8 (by omega) (by omega), not_isAscii_ofUInt8 (by omega) (by omega),
        not_isAscii_ofUInt8 (by omega) (by omega),
        not_isAscii_ofUInt8 (by omega) (by omega), by simp⟩

theorem byteChars_ne_nil (c : Char) : byteChars c ≠ [] := by
  have hpos := c.utf8Size_pos
  rw [← String.length_utf8EncodeChar] at hpos
  intro h
  rw [byteChars, List.map_eq_nil_iff] at h
  rw [h] at hpos
  exact Nat.lt_irrefl 0 hpos

theorem bytesOf_cons (c : Char) (cs : List Char) :
    bytesOf (c :: cs) = byteChars c ++ bytesOf cs := by
  rw [bytesOf, List.flatMap_cons]
  rfl

theorem bytesOf_cons_ascii {c : Char} (h : IsAscii c) (cs : List Char) :
    bytesOf (c :: cs) = c :: bytesOf cs := by
  rw [bytesOf_cons, byteChars_of_isAscii h]
  rfl

theorem bytesOf_append (cs ds : List Char) : bytesOf (cs ++ ds) = bytesOf cs ++ bytesOf ds :=
  List.flatMap_append

theorem bytesOf_of_isAscii {cs : List Char} (h : ∀ c ∈ cs, IsAscii c) : bytesOf cs = cs := by
  induction cs with
  | nil => rfl
  | cons c cs ih =>
    obtain ⟨hc, hcs⟩ := List.forall_mem_cons.mp h
    rw [bytesOf_cons_ascii hc, ih hcs]

private theorem bytesOf_eq_nil {cs : List Char} : bytesOf cs = [] ↔ cs = [] := by
  cases cs with
  | nil => simp [bytesOf]
  | cons c cs => simp [bytesOf_cons, byteChars_ne_nil]

/-- The bytes of a text are those of its encoding -/
theorem bytesOf_toList (source : String) :
    bytesOf source.toList = source.toUTF8.data.toList.map Char.ofUInt8 := by
  have h : source.toUTF8.data.toList = source.toList.flatMap String.utf8EncodeChar := by
    rw [String.toUTF8_eq_toByteArray, ← String.utf8Encode_toList, List.utf8Encode,
      List.data_toByteArray]
  rw [h, List.map_flatMap]
  rfl

/-- The text whose characters are the bytes of a text. -/
def byteText (s : String) : String := String.ofList (s.toUTF8.data.toList.map Char.ofUInt8)

theorem byteText_ofList (cs : List Char) :
    byteText (String.ofList cs) = String.ofList (bytesOf cs) := by
  rw [byteText, ← bytesOf_toList, String.toList_ofList]

theorem length_bytesOf (cs : List Char) : (bytesOf cs).length = byteLength cs := by
  induction cs with
  | nil => rfl
  | cons c cs ih =>
    rw [bytesOf_cons, List.length_append, ih, byteChars, List.length_map,
      String.length_utf8EncodeChar]
    rfl

theorem length_bytesOf_lt_iff {text cs ds : List Char} (hcs : cs <:+ text) (hds : ds <:+ text) :
    (bytesOf ds).length < (bytesOf cs).length ↔ ds.length < cs.length := by
  have hpos : ∀ front : List Char, 0 < (bytesOf front).length ↔ 0 < front.length := fun front => by
    rw [List.length_pos_iff, List.length_pos_iff, ne_eq, bytesOf_eq_nil]
  rcases List.suffix_or_suffix_of_suffix hds hcs with ⟨front, rfl⟩ | ⟨front, rfl⟩
  · have hfront := hpos front
    rw [bytesOf_append, List.length_append, List.length_append]
    omega
  · rw [bytesOf_append, List.length_append, List.length_append]
    omega

theorem length_bytesOf_eq_iff {cs ds : List Char} (h : ds <:+ cs) :
    (bytesOf cs).length = (bytesOf ds).length ↔ cs.length = ds.length := by
  have hlt := length_bytesOf_lt_iff (List.suffix_refl cs) h
  have hle := h.length_le
  obtain ⟨front, rfl⟩ := h
  rw [bytesOf_append, List.length_append] at hlt ⊢
  omega

/-! ## Classes of characters -/

/-- All characters of the class are in ASCII. -/
def InAscii (p : Char → Bool) : Prop := ∀ c, p c = true → IsAscii c

/-- The class holds all characters outside ASCII, or none of them. -/
def Uniform (p : Char → Bool) : Prop := InAscii p ∨ InAscii fun c => !p c

section

variable {c : Char} {p : Char → Bool}

theorem isAscii_of_le {n : UInt32} (hn : n.toNat < 128) (h : c.val ≤ n) : IsAscii c :=
  Nat.lt_of_le_of_lt (UInt32.le_iff_toNat_le.mp h) hn

theorem ne_of_not_isAscii {x : Char} (h : ¬ IsAscii c) (hx : IsAscii x) : c ≠ x :=
  fun he => h (he ▸ hx)

theorem InAscii.eq_false (hp : InAscii p) (h : ¬ IsAscii c) : p c = false :=
  Bool.eq_false_iff.mpr fun hc => h (hp c hc)

theorem inAscii_isDigit : InAscii Char.isDigit := by
  intro c hc
  simp only [Char.isDigit, Bool.and_eq_true, decide_eq_true_eq] at hc
  exact isAscii_of_le (by decide) hc.2

private theorem inAscii_isUpper : InAscii Char.isUpper := by
  intro c hc
  have hrange : 65 ≤ c.val ∧ c.val ≤ 90 := of_decide_eq_true hc
  exact isAscii_of_le (by decide) hrange.2

private theorem inAscii_isLower : InAscii Char.isLower := by
  intro c hc
  obtain ⟨-, hhigh⟩ := (Bool.and_eq_true _ _).mp hc
  have hhigh : c.val ≤ 122 := of_decide_eq_true hhigh
  exact isAscii_of_le (by decide) hhigh

theorem InAscii.or {q : Char → Bool} (hp : InAscii p) (hq : InAscii q) :
    InAscii fun c => p c || q c := by
  intro c hc
  exact ((Bool.or_eq_true _ _).mp hc).elim (hp c) (hq c)

theorem inAscii_eq {x : Char} (hx : IsAscii x) : InAscii fun c => c = x := by
  intro c hc
  exact of_decide_eq_true hc ▸ hx

theorem inAscii_isAlpha : InAscii Char.isAlpha := inAscii_isUpper.or inAscii_isLower

theorem inAscii_isNameStart : InAscii isNameStart := inAscii_isAlpha.or (inAscii_eq (by decide))

theorem inAscii_isNameChar : InAscii isNameChar :=
  (inAscii_isAlpha.or inAscii_isDigit).or (inAscii_eq (by decide))

theorem inAscii_isBlank : InAscii isBlank :=
  ((((inAscii_eq (by decide)).or (inAscii_eq (by decide))).or (inAscii_eq (by decide))).or
    (inAscii_eq (by decide))).or (inAscii_eq (by decide))

theorem inAscii_isStructural : InAscii isStructural := by
  have hall : ∀ x ∈ "()[]\x7b\x7d,.\"+-*/%^|".toList, IsAscii x := isAscii_of_all rfl
  exact fun c hc => hall c (List.contains_iff_mem.mp hc)

theorem inAscii_isBinaryDigit : InAscii isBinaryDigit :=
  (inAscii_eq (by decide)).or (inAscii_eq (by decide))

theorem inAscii_endsElements : InAscii endsElements :=
  (((inAscii_eq (by decide)).or (inAscii_eq (by decide))).or (inAscii_eq (by decide))).or
    (inAscii_eq (by decide))

/-- What outside ASCII has no lower case. -/
theorem toLower_of_not_isAscii (h : ¬ IsAscii c) : c.toLower = c := by
  unfold Char.toLower
  exact dif_neg fun hupper => h (isAscii_of_le (by decide) hupper.2)

theorem isAscii_of_toLower (h : IsAscii c.toLower) : IsAscii c :=
  Decidable.byContradiction fun hc => hc (toLower_of_not_isAscii hc ▸ h)

theorem inAscii_isHexDigit : InAscii isHexDigit := by
  refine inAscii_isDigit.or fun c hc => isAscii_of_toLower ?_
  rw [Bool.and_eq_true] at hc
  exact isAscii_of_le (by decide) (Char.le_def.mp (of_decide_eq_true hc.2))

theorem inAscii_not_isStray : InAscii fun c => !isStray c := by
  intro c hc
  refine ((inAscii_isBlank.or inAscii_isNameChar).or inAscii_isStructural) c ?_
  simpa [isStray] using hc

theorem isStray_of_not_isAscii (h : ¬ IsAscii c) : isStray c = true := by
  have hnot := inAscii_not_isStray.eq_false h
  simpa using hnot

theorem operator_ofChar?_of_not_isAscii {x : Char} (hx : ¬ IsAscii x) :
    Operator.ofChar? x = none := by
  unfold Operator.ofChar?
  split
  case h_8 => rfl
  all_goals exact (hx (by decide)).elim

end

/-! ## Runs -/

section

variable {p : Char → Bool} {c : Char}

theorem Uniform.eq_of_mem_byteChars (hp : Uniform p) : ∀ b ∈ byteChars c, p b = p c := by
  by_cases hc : IsAscii c
  · rw [byteChars_of_isAscii hc]
    exact List.forall_mem_singleton.mpr rfl
  · intro b hb
    have hb := not_isAscii_of_mem_byteChars hc b hb
    rcases hp with hp | hp
    · rw [hp.eq_false hb, hp.eq_false hc]
    · exact Bool.not_inj ((hp.eq_false hb).trans (hp.eq_false hc).symm)

theorem takeWhile_bytesOf (hp : Uniform p) (cs : List Char) :
    (bytesOf cs).takeWhile p = bytesOf (cs.takeWhile p) := by
  induction cs with
  | nil => rfl
  | cons c cs ih =>
    have hbytes := hp.eq_of_mem_byteChars (c := c)
    rw [bytesOf_cons, List.takeWhile_cons]
    split
    · rename_i hc
      rw [List.takeWhile_append_of_pos fun b hb => (hbytes b hb).trans hc, ih, bytesOf_cons]
    · rename_i hc
      obtain ⟨b, bs, hb⟩ := List.exists_cons_of_ne_nil (byteChars_ne_nil c)
      have hfirst : ¬ p b = true := by
        rwa [hbytes b (hb ▸ List.mem_cons_self)]
      rw [hb, List.cons_append, List.takeWhile_cons_of_neg hfirst]
      rfl

theorem dropWhile_bytesOf (hp : Uniform p) (cs : List Char) :
    (bytesOf cs).dropWhile p = bytesOf (cs.dropWhile p) := by
  have hsplit := congrArg bytesOf (List.takeWhile_append_dropWhile (p := p) (l := cs))
  rw [bytesOf_append, ← takeWhile_bytesOf hp] at hsplit
  have hbytes := List.takeWhile_append_dropWhile (p := p) (l := bytesOf cs)
  exact List.append_cancel_left (hbytes.trans hsplit.symm)

/-- The bytes of a name or of digits are their characters. -/
theorem InAscii.takeWhile_bytesOf (hp : InAscii p) (cs : List Char) :
    (bytesOf cs).takeWhile p = cs.takeWhile p := by
  rw [Formula.takeWhile_bytesOf (.inl hp)]
  exact bytesOf_of_isAscii fun c hc => hp c (List.all_eq_true.mp List.all_takeWhile c hc)

theorem InAscii.dropWhile_bytesOf (hp : InAscii p) (cs : List Char) :
    (bytesOf cs).dropWhile p = bytesOf (cs.dropWhile p) := Formula.dropWhile_bytesOf (.inl hp) cs

/-- The first byte of a text: its first character, or a byte of a character outside ASCII. -/
theorem bytesOf_first (c : Char) (rest : List Char) :
    (IsAscii c ∧ bytesOf (c :: rest) = c :: bytesOf rest) ∨
      ¬ IsAscii c ∧ ∃ b bs, bytesOf (c :: rest) = b :: bs ∧ ¬ IsAscii b := by
  by_cases hc : IsAscii c
  · exact .inl ⟨hc, bytesOf_cons_ascii hc rest⟩
  · obtain ⟨b, bs, hb⟩ := List.exists_cons_of_ne_nil (byteChars_ne_nil c)
    refine .inr ⟨hc, b, bs ++ bytesOf rest, by rw [bytesOf_cons, hb, List.cons_append], ?_⟩
    exact not_isAscii_of_mem_byteChars hc b (hb ▸ List.mem_cons_self)

theorem InAscii.any_head?_bytesOf (hp : InAscii p) (cs : List Char) :
    (bytesOf cs).head?.any p = cs.head?.any p := by
  cases cs with
  | nil => rfl
  | cons c rest =>
    rcases bytesOf_first c rest with ⟨-, h⟩ | ⟨hc, b, bs, h, hb⟩
    · rw [h]
      rfl
    · rw [h]
      exact (hp.eq_false hb).trans (hp.eq_false hc).symm

end

/-! ## Numerals -/

section

variable {cs : List Char}

private theorem suffix_ofChar?_of_not_isAscii {c : Char} (h : ¬ IsAscii c) :
    Suffix.ofChar? c = none := by
  unfold Suffix.ofChar?
  rw [toLower_of_not_isAscii h]
  split
  case h_6 => rfl
  all_goals exact (h (by decide)).elim

theorem takeSuffix_bytesOf (allowed : Suffix → Bool) (cs : List Char) :
    takeSuffix allowed (bytesOf cs) =
      ((takeSuffix allowed cs).1, bytesOf (takeSuffix allowed cs).2) := by
  cases cs with
  | nil => rfl
  | cons c rest =>
    unfold takeSuffix
    rcases bytesOf_first c rest with ⟨hc, h⟩ | ⟨hc, b, bs, h, hb⟩
    · rw [h]
      simp only
      split
      · rw [h]
      · split
        · rfl
        · rw [h]
    · rw [h]
      simp only [suffix_ofChar?_of_not_isAscii hb, suffix_ofChar?_of_not_isAscii hc, h]

theorem takeRadix_bytesOf (base : Nat) {isDigit : Char → Bool} (hd : InAscii isDigit)
    (cs : List Char) :
    takeRadix base isDigit (bytesOf cs) =
      ((takeRadix base isDigit cs).1, bytesOf (takeRadix base isDigit cs).2) := by
  simp only [takeRadix, hd.takeWhile_bytesOf, hd.dropWhile_bytesOf, takeSuffix_bytesOf]
  split <;> rfl

theorem takeFraction_bytesOf (cs : List Char) :
    takeFraction (bytesOf cs) = ((takeFraction cs).1, bytesOf (takeFraction cs).2) := by
  cases cs with
  | nil => rfl
  | cons dot rest =>
    unfold takeFraction
    rcases bytesOf_first dot rest with ⟨hc, h⟩ | ⟨hc, b, bs, h, hb⟩
    · rw [h]
      simp only [inAscii_isDigit.any_head?_bytesOf, inAscii_isDigit.takeWhile_bytesOf,
        inAscii_isDigit.dropWhile_bytesOf]
      split
      · rfl
      · rw [h]
    · rw [h]
      simp (disch := decide) only [ne_of_not_isAscii hc, ne_of_not_isAscii hb,
        false_and, if_false, h]

theorem takeSign_bytesOf (cs : List Char) :
    takeSign (bytesOf cs) = ((takeSign cs).1, bytesOf (takeSign cs).2) := by
  cases cs with
  | nil => rfl
  | cons c rest =>
    unfold takeSign
    rcases bytesOf_first c rest with ⟨hc, h⟩ | ⟨hc, b, bs, h, hb⟩
    · rw [h]
      simp only
      split
      · rfl
      · split
        · rfl
        · rw [h]
    · rw [h]
      simp (disch := decide) only [ne_of_not_isAscii hc, ne_of_not_isAscii hb, if_false, h]

theorem takeExponent_bytesOf (cs : List Char) :
    takeExponent (bytesOf cs) = ((takeExponent cs).1, bytesOf (takeExponent cs).2) := by
  cases cs with
  | nil => rfl
  | cons e rest =>
    unfold takeExponent
    rcases bytesOf_first e rest with ⟨hc, h⟩ | ⟨hc, b, bs, h, hb⟩
    · rw [h]
      simp only [takeSign_bytesOf, inAscii_isDigit.any_head?_bytesOf,
        inAscii_isDigit.takeWhile_bytesOf, inAscii_isDigit.dropWhile_bytesOf]
      split
      · rfl
      · rw [h]
    · rw [h]
      simp (disch := decide) only [ne_of_not_isAscii hc, ne_of_not_isAscii hb, or_self, false_and,
        if_false, h]

theorem takeDecimal_bytesOf {c : Char} (hc : IsAscii c) (rest : List Char) :
    takeDecimal (bytesOf (c :: rest)) =
      ((takeDecimal (c :: rest)).1, bytesOf (takeDecimal (c :: rest)).2) := by
  have hdrop : (bytesOf (c :: rest)).drop 1 = bytesOf ((c :: rest).drop 1) := by
    rw [bytesOf_cons_ascii hc]
    rfl
  simp only [takeDecimal, inAscii_isDigit.takeWhile_bytesOf, inAscii_isDigit.dropWhile_bytesOf,
    takeFraction_bytesOf, takeExponent_bytesOf, takeSuffix_bytesOf, hdrop]
  split <;> rfl

theorem radix?_bytesOf {c : Char} (hc : IsAscii c) (rest : List Char) :
    radix? (bytesOf (c :: rest)) = radix? (c :: rest) := by
  rw [bytesOf_cons_ascii hc]
  cases rest with
  | nil => rfl
  | cons mark rest =>
    rcases bytesOf_first mark rest with ⟨-, h⟩ | ⟨hm, b, bs, h, hb⟩
    · rw [h]
      rfl
    · rw [h]
      simp (disch := decide) only [radix?, toLower_of_not_isAscii hm, toLower_of_not_isAscii hb,
        ne_of_not_isAscii hm, ne_of_not_isAscii hb, and_false, if_false]

/-- A radix is announced by two characters of ASCII, and its digits are such as well. -/
theorem radix?_ascii {base : Nat} {isDigit : Char → Bool} (h : radix? cs = some (base, isDigit)) :
    InAscii isDigit ∧ bytesOf (cs.drop 2) = (bytesOf cs).drop 2 := by
  unfold radix? at h
  split at h
  · rename_i zero mark rest
    have hdrop : IsAscii zero → IsAscii mark.toLower →
        bytesOf rest = (bytesOf (zero :: mark :: rest)).drop 2 := by
      intro hzero hmark
      rw [bytesOf_cons_ascii hzero, bytesOf_cons_ascii (isAscii_of_toLower hmark)]
      rfl
    split at h
    · rename_i hhex
      cases h
      exact ⟨inAscii_isHexDigit, hdrop (hhex.1 ▸ by decide) (hhex.2 ▸ by decide)⟩
    · split at h
      · rename_i hbinary
        cases h
        exact ⟨inAscii_isBinaryDigit, hdrop (hbinary.1 ▸ by decide) (hbinary.2 ▸ by decide)⟩
      · cases h
  · cases h

theorem takeNumber_bytesOf {c : Char} (hc : IsAscii c) (rest : List Char) :
    takeNumber (bytesOf (c :: rest)) =
      ((takeNumber (c :: rest)).1, bytesOf (takeNumber (c :: rest)).2) := by
  unfold takeNumber
  rw [radix?_bytesOf hc]
  split
  · rename_i base isDigit hradix
    obtain ⟨hd, hdrop⟩ := radix?_ascii hradix
    rw [← hdrop, takeRadix_bytesOf base hd]
  · exact takeDecimal_bytesOf hc rest

end

end Formula
