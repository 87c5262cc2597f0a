import Formula.Proofs.NumeralGrammar
import Formula.Proofs.StringLiteral
import Formula.Proofs.TypeBrackets

/-!
# Tokens in front of another text

`Loose cs cs'` if the text `cs'` is `cs` with blanks put in, anywhere. No token goes on over a blank
or a bar, so a token is read the same if what follows it is looser or a bar is put behind it
(`Trails`): numerals (`readNumber_trails`), strings (`readString_found`) and strays
(`readStray_trails`).
-/

namespace Formula

/-- The second text is the first one with blanks put in. -/
inductive Loose : List Char → List Char → Prop
  | nil : Loose [] []
  | keep (x : Char) {cs cs' : List Char} (h : Loose cs cs') : Loose (x :: cs) (x :: cs')
  | blank {x : Char} (hx : isBlank x = true) {cs cs' : List Char} (h : Loose cs cs') :
    Loose cs (x :: cs')

namespace Loose

variable {cs cs' ds ds' text : List Char}

theorem refl (cs : List Char) : Loose cs cs := by
  induction cs with
  | nil => exact .nil
  | cons x cs ih => exact .keep x ih

theorem append (h : Loose cs cs') (h' : Loose ds ds') : Loose (cs ++ ds) (cs' ++ ds') := by
  induction h with
  | nil => exact h'
  | keep x _ ih => exact .keep x ih
  | blank hx _ ih => exact .blank hx ih

theorem blanks {blanks : List Char} (hblanks : Blank blanks) (h : Loose cs cs') :
    Loose cs (blanks ++ cs') := by
  induction blanks with
  | nil => exact h
  | cons x blanks ih =>
    obtain ⟨hx, hblanks⟩ := List.forall_mem_cons.mp hblanks
    exact .blank hx (ih hblanks)

theorem eq_nil (h : Loose cs []) : cs = [] := by
  cases h
  rfl

/-- What is no blank was there before. -/
theorem uncons {x : Char} (hx : isBlank x = false) (h : Loose cs (x :: cs')) :
    ∃ ds, cs = x :: ds ∧ Loose ds cs' := by
  cases h with
  | keep _ h => exact ⟨_, rfl, h⟩
  | blank hblank h =>
    rw [hx] at hblank
    cases hblank

theorem uncons_append (htext : ∀ x ∈ text, isBlank x = false) (h : Loose cs (text ++ cs')) :
    ∃ ds, cs = text ++ ds ∧ Loose ds cs' := by
  induction text generalizing cs with
  | nil => exact ⟨cs, rfl, h⟩
  | cons x text ih =>
    obtain ⟨hx, htext⟩ := List.forall_mem_cons.mp htext
    obtain ⟨ds, rfl, hds⟩ := h.uncons hx
    obtain ⟨es, rfl, hes⟩ := ih htext hds
    exact ⟨es, rfl, hes⟩

/-- A looser text in two parts. -/
theorem split (h : Loose cs (cs' ++ ds')) : ∃ u v, cs = u ++ v ∧ Loose u cs' ∧ Loose v ds' := by
  induction cs' generalizing cs with
  | nil => exact ⟨[], cs, rfl, .nil, h⟩
  | cons x cs' ih =>
    cases h with
    | keep _ h =>
      obtain ⟨u, v, rfl, hu, hv⟩ := ih h
      exact ⟨x :: u, v, rfl, .keep x hu, hv⟩
    | blank hx h =>
      obtain ⟨u, v, rfl, hu, hv⟩ := ih h
      exact ⟨u, v, rfl, .blank hx hu, hv⟩

/-- A looser text starts with a blank, or as before. -/
theorem head? (h : Loose cs cs') :
    cs'.head? = cs.head? ∨ ∃ x, isBlank x = true ∧ cs'.head? = some x := by
  cases h with
  | nil => exact .inl rfl
  | keep x => exact .inl rfl
  | blank hx => exact .inr ⟨_, hx, rfl⟩

theorem stopsAt {p : Char → Bool} (hp : ∀ x, isBlank x = true → p x = false) (h : Loose cs cs')
    (hcs : StopsAt p cs) : StopsAt p cs' := by
  intro x hx
  rcases h.head? with hhead | ⟨y, hy, hhead⟩
  · exact hcs x (hhead ▸ hx)
  · cases hhead.symm.trans hx
    exact hp _ hy

/-- Behind all blanks, the texts start alike. -/
theorem skip (h : Loose cs cs') :
    Loose (cs.dropWhile isBlank) (cs'.dropWhile isBlank) ∧
      (cs'.dropWhile isBlank).head? = (cs.dropWhile isBlank).head? := by
  induction h with
  | nil => exact ⟨.nil, rfl⟩
  | @keep x cs cs' h ih =>
    cases hx : isBlank x with
    | true => rwa [List.dropWhile_cons_of_pos hx, List.dropWhile_cons_of_pos hx]
    | false =>
      have hneg : ¬ isBlank x = true := Bool.eq_false_iff.mp hx
      rw [List.dropWhile_cons_of_neg hneg, List.dropWhile_cons_of_neg hneg]
      exact ⟨.keep x h, rfl⟩
  | blank hx h ih => rwa [List.dropWhile_cons_of_pos hx]

end Loose

/-! ## What may follow a token -/

/-- Neither a blank nor a bar, as all that a numeral or a name is made of. -/
def IsSolid (x : Char) : Prop := isBlank x = false ∧ x ≠ '|'

/-- No part of a token starts `after'` that does not start `after`. -/
def Trails (after after' : List Char) : Prop :=
  ∀ text rest, (∀ x ∈ text, IsSolid x) → after' = text ++ rest → ∃ rest', after = text ++ rest'

theorem Loose.trails {after after' : List Char} (h : Loose after after') : Trails after after' := by
  rintro text rest htext rfl
  obtain ⟨ds, hds, -⟩ := h.uncons_append fun x hx => (htext x hx).1
  exact ⟨ds, hds⟩

theorem trails_bar (cs more : List Char) : Trails cs (cs ++ '|' :: more) := by
  intro text rest htext heq
  rcases List.append_eq_append_iff.mp heq with ⟨z, rfl, hz⟩ | ⟨z, rfl, -⟩
  · cases z with
    | nil => exact ⟨[], by simp⟩
    | cons x z =>
      cases hz
      exact ((htext '|' (by simp)).2 rfl).elim
  · exact ⟨z, rfl⟩

theorem Trails.stopsAt {p : Char → Bool} {after after' : List Char}
    (hp : ∀ x, p x = true → IsSolid x) (h : Trails after after') (hafter : StopsAt p after) :
    StopsAt p after' := by
  intro x hx
  obtain ⟨rest, rfl⟩ := List.head?_eq_some_iff.mp hx
  refine Bool.eq_false_iff.mpr fun hpx => ?_
  obtain ⟨rest', rfl⟩ := h [x] rest (List.forall_mem_singleton.mpr (hp x hpx)) rfl
  exact Bool.false_ne_true ((hafter x rfl).symm.trans hpx)

theorem isNameChar_of_isBlank {x : Char} (h : isBlank x = true) : isNameChar x = false :=
  Bool.eq_false_iff.mpr fun hname =>
    not_mem_delimiters (p := isNameChar) rfl hname (mem_delimiters_of_isBlank h)

theorem isBlank_of_isNameChar {x : Char} (h : isNameChar x = true) : isBlank x = false :=
  Bool.eq_false_iff.mpr fun hblank =>
    Bool.false_ne_true ((isNameChar_of_isBlank hblank).symm.trans h)

theorem isSolid_of_isNameChar {x : Char} (h : isNameChar x = true) : IsSolid x :=
  ⟨isBlank_of_isNameChar h, fun hbar => absurd (hbar ▸ h) (by decide)⟩

theorem isSolid_of_isStray {x : Char} (h : isStray x = true) : IsSolid x := by
  refine ⟨Bool.eq_false_iff.mpr fun hblank => ?_, fun hbar => absurd (hbar ▸ h) (by decide)⟩
  simp [isStray, hblank] at h

theorem IsName.solid {cs : List Char} (h : IsName cs) : ∀ x ∈ cs, isBlank x = false :=
  fun x hx => isBlank_of_isNameChar (h.chars x hx)

theorem ne_of_isBlank {x : Char} (hx : isBlank x = false) (y : Char) (hy : isBlank y = true) :
    decide (y = x) = false := by
  refine decide_eq_false ?_
  rintro rfl
  exact Bool.false_ne_true (hx.symm.trans hy)

namespace Cursor

theorem sees_eq_false_iff {c : Cursor} {x : Char} : c.sees x = false ↔ StopsAt (· = x) c.rest := by
  unfold sees peek? StopsAt
  cases c.rest.head? <;> simp

/-- What is not seen in front of a text is not seen in front of a looser one. -/
theorem sees_loose {c c' : Cursor} {x : Char} (hx : isBlank x = false)
    (hloose : Loose c.rest c'.rest) (h : c.sees x = false) : c'.sees x = false :=
  sees_eq_false_iff.mpr (hloose.stopsAt (ne_of_isBlank hx) (sees_eq_false_iff.mp h))

end Cursor

/-! ## Numerals -/

section

variable {w u after after' : List Char}

theorem StopsAt.append_trails {p : Char → Bool} (hp : ∀ x, p x = true → IsSolid x)
    (htrails : Trails after after') (h : StopsAt p (u ++ after)) : StopsAt p (u ++ after') := by
  cases u with
  | nil => exact htrails.stopsAt hp h
  | cons x u => exact h

/-- A run that ends in front of a text ends in front of one that trails it. -/
theorem run_trails {p : Char → Bool} (hp : ∀ x, p x = true → IsSolid x)
    (htrails : Trails after after') (h : (w ++ after).dropWhile p = u ++ after) :
    (w ++ after').takeWhile p = (w ++ after).takeWhile p ∧
      (w ++ after').dropWhile p = u ++ after' := by
  have hsplit : (w ++ after).takeWhile p ++ (u ++ after) = w ++ after := by
    rw [← h, List.takeWhile_append_dropWhile]
  generalize hrun : (w ++ after).takeWhile p = run at hsplit
  have hall : ∀ x ∈ run, p x = true := hrun ▸ all_takeWhile
  rw [← List.append_assoc] at hsplit
  obtain rfl := List.append_cancel_right hsplit
  have hstop : StopsAt p (u ++ after') := .append_trails hp htrails (h ▸ stopsAt_dropWhile p _)
  rw [List.append_assoc]
  exact ⟨hstop.takeWhile hall, hstop.dropWhile hall⟩

/-- A part that is taken in front of a text is taken in front of one that trails it. -/
theorem Takes.trails {α : Type} {part : List Char → α → Prop}
    (hpart : ∀ text a, part text a → ∀ x ∈ text, IsSolid x) (htrails : Trails after after')
    {a : Option α} (h : Takes part (w ++ after) a (u ++ after)) :
    Takes part (w ++ after') a (u ++ after') := by
  -- a part in front of the one text is in front of the other
  have hback : ∀ text rest a, part text a → w ++ after' = text ++ rest →
      ∃ rest', w ++ after = text ++ rest' := by
    intro text rest a htext heq
    rcases List.append_eq_append_iff.mp heq with ⟨z, rfl, hafter⟩ | ⟨z, rfl, -⟩
    · obtain ⟨ds, rfl⟩ :=
        htrails z rest (fun x hx => hpart _ _ htext x (List.mem_append_right w hx)) hafter
      exact ⟨ds, (List.append_assoc _ _ _).symm⟩
    · exact ⟨z ++ after, List.append_assoc _ _ _⟩
  generalize hrest : u ++ after = rest at h
  cases h with
  | @some text _ a htext hcs hlongest =>
    rw [← hrest, ← List.append_assoc] at hcs
    refine .some htext (by rw [List.append_cancel_right hcs, List.append_assoc])
      fun text' rest' a' htext' heq => ?_
    obtain ⟨rest'', heq⟩ := hback text' rest' a' htext' heq
    exact hlongest text' rest'' a' htext' heq
  | none hnone =>
    rw [List.append_cancel_right hrest]
    refine .none fun text rest a htext heq => ?_
    obtain ⟨rest', heq⟩ := hback text rest a htext heq
    exact hnone text rest' a htext heq

theorem takeFraction_trails (htrails : Trails after after') {fraction : Option (List Char)}
    (h : takeFraction (w ++ after) = (fraction, u ++ after)) :
    takeFraction (w ++ after') = (fraction, u ++ after') := by
  refine Takes.fraction_eq
    (.trails ?_ htrails (by simpa only [h] using takeFraction_takes (w ++ after)))
  rintro _ digits ⟨rfl, -, hdigits⟩
  exact List.forall_mem_cons.mpr
    ⟨⟨rfl, by decide⟩, fun x hx => isSolid_of_isNameChar (isNameChar_of_isDigit (hdigits x hx))⟩

theorem takeExponent_trails (htrails : Trails after after') {exponent : Option Int}
    (h : takeExponent (w ++ after) = (exponent, u ++ after)) :
    takeExponent (w ++ after') = (exponent, u ++ after') := by
  refine Takes.exponent_eq
    (.trails ?_ htrails (by simpa only [h] using takeExponent_takes (w ++ after)))
  rintro _ e ⟨letter, hletter, sign, digits, -, hdigits, rfl, -⟩
  have hsolid : ∀ x ∈ digits, IsSolid x :=
    fun x hx => isSolid_of_isNameChar (isNameChar_of_isDigit (hdigits x hx))
  have hsign : ∀ x ∈ Exponent.signText sign, IsSolid x := by
    rcases sign with _ | _ | _ <;> simp [Exponent.signText, IsSolid, isBlank]
  refine List.forall_mem_cons.mpr ⟨?_, List.forall_mem_append.mpr ⟨hsign, hsolid⟩⟩
  simp only [List.mem_cons, List.not_mem_nil, or_false] at hletter
  rcases hletter with rfl | rfl <;> exact ⟨rfl, by decide⟩

theorem takeSuffix_trails (allowed : Suffix → Bool) (htrails : Trails after after')
    {suffix : Option Suffix} (h : takeSuffix allowed (w ++ after) = (suffix, u ++ after)) :
    takeSuffix allowed (w ++ after') = (suffix, u ++ after') := by
  refine Takes.suffix_eq
    (.trails ?_ htrails (by simpa only [h] using takeSuffix_takes allowed (w ++ after)))
  rintro _ s ⟨x, hx, rfl, -⟩
  exact List.forall_mem_singleton.mpr (isSolid_of_isNameChar (isNameChar_of_mem_letters hx))

/-- What is left of a text ends in all that is left later. -/
theorem exists_append_of_suffix {cs : List Char} (h : u ++ after <:+ cs) :
    ∃ v, cs = v ++ after := by
  obtain ⟨v, rfl⟩ := h
  exact ⟨v ++ u, (List.append_assoc _ _ _).symm⟩

theorem takeRadix_trails (r : Radix) (htrails : Trails after after') {value : Option Value}
    (h : takeRadix r.base r.isDigit (w ++ after) = (value, u ++ after)) :
    takeRadix r.base r.isDigit (w ++ after') = (value, u ++ after') := by
  obtain ⟨v, hv⟩ : ∃ v, (w ++ after).dropWhile r.isDigit = v ++ after := by
    refine exists_append_of_suffix (u := u) ?_
    rw [show u ++ after = _ from (congrArg Prod.snd h).symm]
    simp only [takeRadix]
    split
    · exact List.suffix_refl _
    · exact takeSuffix_suffix _ _
  obtain ⟨htake, hdrop⟩ :=
    run_trails (fun x hx => isSolid_of_isNameChar (isNameChar_of_radix hx)) htrails hv
  simp only [takeRadix] at h ⊢
  rw [htake, hdrop]
  rw [hv] at h
  split at h
  · rename_i hnone
    rw [if_pos hnone]
    obtain ⟨rfl, hrest⟩ := Prod.mk.inj h
    rw [List.append_cancel_right hrest]
  · rename_i hsome
    rw [if_neg hsome]
    obtain ⟨hvalue, hrest⟩ := Prod.mk.inj h
    rw [takeSuffix_trails Suffix.isInteger htrails (Prod.ext rfl hrest), ← hvalue]

theorem takeFraction_of_none {cs : List Char} (h : (takeFraction cs).1 = none) :
    (takeFraction cs).2 = cs := by
  have htakes := takeFraction_takes cs
  rw [h] at htakes
  generalize (takeFraction cs).2 = rest at htakes
  cases htakes
  rfl

theorem takeDecimal_trails (hw : w ≠ []) (htrails : Trails after after')
    {value : Except Trap (Option Value)}
    (h : takeDecimal (w ++ after) = (value, u ++ after)) :
    takeDecimal (w ++ after') = (value, u ++ after') := by
  cases hempty : ((w ++ after).takeWhile Char.isDigit).isEmpty &&
      (takeFraction ((w ++ after).dropWhile Char.isDigit)).1.isNone with
  | true =>
    obtain ⟨hwhole, hfraction⟩ := (Bool.and_eq_true _ _).mp hempty
    rw [List.isEmpty_iff] at hwhole
    rw [Option.isNone_iff_eq_none] at hfraction
    have hdrop : (w ++ after).dropWhile Char.isDigit = w ++ after := by
      conv =>
        rhs; rw [← List.takeWhile_append_dropWhile (p := Char.isDigit) (l := w ++ after), hwhole]
      rfl
    obtain ⟨hwhole', hdrop'⟩ :=
      run_trails (fun x hx => isSolid_of_isNameChar (isNameChar_of_isDigit hx)) htrails hdrop
    rw [hdrop] at hfraction
    have hfraction' : takeFraction (w ++ after') = (none, w ++ after') :=
      takeFraction_trails htrails (Prod.ext hfraction (takeFraction_of_none hfraction))
    rw [takeDecimal_of_none hwhole (by rw [hdrop]; exact hfraction)] at h
    obtain ⟨rfl, hrest⟩ := Prod.mk.inj h
    rw [takeDecimal_of_none (hwhole'.trans hwhole) (by rw [hdrop', hfraction'])]
    obtain ⟨x, w, rfl⟩ := List.exists_cons_of_ne_nil hw
    rw [← List.append_cancel_right hrest]
    rfl
  | false =>
    simp only [takeDecimal] at h ⊢
    rw [hempty, if_neg Bool.false_ne_true] at h
    obtain ⟨hvalue, hrest⟩ := Prod.mk.inj h
    -- each part leaves a text that ends as the whole one does
    obtain ⟨v₃, hv₃⟩ :
        ∃ v, (takeExponent (takeFraction ((w ++ after).dropWhile Char.isDigit)).2).2 = v ++ after :=
      exists_append_of_suffix (hrest ▸ takeSuffix_suffix _ _)
    obtain ⟨v₂, hv₂⟩ : ∃ v, (takeFraction ((w ++ after).dropWhile Char.isDigit)).2 = v ++ after :=
      exists_append_of_suffix (hv₃ ▸ takeExponent_suffix _)
    obtain ⟨v₁, hv₁⟩ : ∃ v, (w ++ after).dropWhile Char.isDigit = v ++ after :=
      exists_append_of_suffix (hv₂ ▸ (takeFraction_suffix _).1)
    obtain ⟨htake, hdrop⟩ :=
      run_trails (fun x hx => isSolid_of_isNameChar (isNameChar_of_isDigit hx)) htrails hv₁
    obtain ⟨fraction, hfraction⟩ :
        ∃ fraction, takeFraction (v₁ ++ after) = (fraction, v₂ ++ after) :=
      ⟨_, Prod.ext rfl (hv₁ ▸ hv₂)⟩
    obtain ⟨exponent, hexponent⟩ :
        ∃ exponent, takeExponent (v₂ ++ after) = (exponent, v₃ ++ after) :=
      ⟨_, Prod.ext rfl (hv₂ ▸ hv₃)⟩
    obtain ⟨suffix, hsuffix⟩ :
        ∃ suffix, takeSuffix (fun _ => true) (v₃ ++ after) = (suffix, u ++ after) :=
      ⟨_, Prod.ext rfl (hv₃ ▸ hrest)⟩
    simp only [hv₁, hfraction, hexponent, hsuffix] at hvalue hempty
    simp only [htake, hdrop, takeFraction_trails htrails hfraction,
      takeExponent_trails htrails hexponent, takeSuffix_trails _ htrails hsuffix, hempty, hvalue]
    rfl

theorem radix?_trails (hw : w ≠ []) (htrails : Trails after after')
    (h : radix? (w ++ after) = none) :
    radix? (w ++ after') = none := by
  rcases w with _ | ⟨x, _ | ⟨y, w⟩⟩
  · exact (hw rfl).elim
  · cases hradix : radix? ([x] ++ after') with
    | none => rfl
    | some found =>
      obtain ⟨r, mark, more, hmark, hcs, -⟩ := exists_radix_of_radix? hradix
      obtain ⟨rfl, rfl⟩ := List.cons.inj hcs
      have hsolid :=
        List.forall_mem_singleton.mpr (isSolid_of_isNameChar (isNameChar_of_mem_marks hmark))
      obtain ⟨more', rfl⟩ := htrails [mark] more hsolid rfl
      rw [List.singleton_append, List.singleton_append, radix?_mark hmark] at h
      cases h
  · exact h

theorem takeNumber_trails (hw : w ≠ []) (htrails : Trails after after')
    {value : Except Trap (Option Value)}
    (h : takeNumber (w ++ after) = (value, u ++ after)) :
    takeNumber (w ++ after') = (value, u ++ after') := by
  cases hradix : radix? (w ++ after) with
  | none =>
    rw [takeNumber, hradix] at h
    rw [takeNumber, radix?_trails hw htrails hradix]
    exact takeDecimal_trails hw htrails h
  | some found =>
    obtain ⟨r, mark, more, hmark, hcs, rfl⟩ := exists_radix_of_radix? hradix
    rw [takeNumber, hradix, hcs] at h
    obtain ⟨rfl, hrest⟩ := Prod.mk.inj h
    replace hrest : (takeRadix r.base r.isDigit more).2 = u ++ after := hrest
    have hsuffix := takeRadix_suffix r.base r.isDigit more
    rw [hrest] at hsuffix
    obtain ⟨v, rfl⟩ := exists_append_of_suffix hsuffix
    rw [← List.cons_append, ← List.cons_append] at hcs
    obtain rfl := List.append_cancel_right hcs
    rw [takeNumber, List.cons_append, List.cons_append, radix?_mark hmark]
    have hradix' := takeRadix_trails r htrails (Prod.ext rfl hrest)
    simp only [List.drop_succ_cons, List.drop_zero, hradix']

/-- How a numeral is read, by what is taken from its text `raw`: it is a constant if a value is
taken and no part `u` of a name is left of the text. -/
theorem readNumber_of_takeNumber {raw : List Char} {value : Except Trap (Option Value)}
    (h : takeNumber (raw ++ after) = (value, u ++ after)) (hu : ∀ x ∈ u, isNameChar x = true)
    (hafter : StopsAt isNameChar after) (offset : Nat) :
    readNumber ⟨raw ++ after, offset⟩ =
      (value.map fun v =>
        (v.filter fun _ => u.isEmpty).elim (.unresolved (String.ofList raw)) .constant,
          ⟨after, offset + byteLength raw⟩) := by
  have hraw : (raw ++ after).take ((raw ++ after).length - after.length) = raw := by
    rw [List.length_append, Nat.add_sub_cancel, List.take_left]
  simp only [readNumber, h, hafter.dropWhile hu, hraw]
  rcases value with trap | _ | v
  · rfl
  · rfl
  · cases u with
    | nil => exact congrArg (Except.ok ·, _) (if_pos rfl)
    | cons x u =>
      refine congrArg (Except.ok ·, _) (if_neg ?_)
      rw [List.length_append, List.length_cons]
      omega

/-- A numeral, or the raw text in its place, is read the same if what follows it trails. -/
theorem readNumber_trails {c : Cursor} (hc : c.rest ≠ []) :
    ∃ raw, c.rest = raw ++ (readNumber c).2.rest ∧
      ∀ (c' : Cursor) after', Trails (readNumber c).2.rest after' → c'.rest = raw ++ after' →
        (readNumber c').1 = (readNumber c).1 ∧ (readNumber c').2.rest = after' := by
  obtain ⟨rest, offset⟩ := c
  obtain ⟨hsuffix, hlt⟩ := takeNumber_suffix hc
  have hend := List.dropWhile_suffix isNameChar (l := (takeNumber rest).2)
  have hstop := stopsAt_dropWhile isNameChar (takeNumber rest).2
  have hsplit := (List.takeWhile_append_dropWhile (p := isNameChar) (l := (takeNumber rest).2)).symm
  have hlt := Nat.lt_of_le_of_lt hend.length_le hlt
  obtain ⟨raw, hraw⟩ := hend.trans hsuffix
  simp only at hraw hlt
  generalize (takeNumber rest).2.dropWhile isNameChar = after at hstop hsplit hlt hraw
  subst hraw
  have hne : raw ≠ [] := by
    rintro rfl
    exact Nat.lt_irrefl _ hlt
  have htake : takeNumber (raw ++ after) =
      ((takeNumber (raw ++ after)).1,
        (takeNumber (raw ++ after)).2.takeWhile isNameChar ++ after) :=
    Prod.ext rfl hsplit
  have hread := readNumber_of_takeNumber htake all_takeWhile hstop offset
  refine ⟨raw, by rw [hread], fun ⟨rest', offset'⟩ after' htrails hc' => ?_⟩
  rw [hread] at htrails
  subst hc'
  rw [hread, readNumber_of_takeNumber (takeNumber_trails hne htrails htake) all_takeWhile
    (htrails.stopsAt (fun x => isSolid_of_isNameChar) hstop) offset']
  exact ⟨rfl, rfl⟩

end

/-! ## Strings and strays -/

/-- A string is read the same, whatever follows. -/
theorem readString_found {c d : Cursor} {v : Value} (hc : c.sees '"' = true)
    (h : readString c = .ok (v, d)) :
    ∃ used, c.rest = used ++ d.rest ∧ ∀ more (c' : Cursor), c'.rest = used ++ more →
      ∃ d', readString c' = .ok (v, d') ∧ d'.rest = more := by
  obtain ⟨rest, offset⟩ := c
  obtain ⟨cs, rfl⟩ : ∃ cs, rest = '"' :: cs := ⟨_, Cursor.rest_of_sees hc⟩
  rw [readString_quote] at h
  obtain ⟨⟨text, d⟩, hbody, he⟩ := Except.map_ok h
  cases he
  obtain ⟨body, hencodes, hrest⟩ := encodes_of_readStringBody offset hbody
  refine ⟨inQuotes body, by rw [inQuotes_append, ← hrest], fun more ⟨rest', offset'⟩ hc' => ?_⟩
  subst hc'
  refine ⟨⟨more, offset' + 1 + byteLength body + 1⟩, ?_, rfl⟩
  rw [inQuotes_append, readString_quote, hencodes.readStringBody offset']
  rfl

theorem readStray_trails {c : Cursor} (hc : c.rest ≠ []) :
    ∃ used, c.rest = used ++ (readStray c).2.rest ∧ ∀ (c' : Cursor) more,
      Trails (readStray c).2.rest more →
      c'.rest = used ++ more → (readStray c').1 = (readStray c).1 ∧
        (readStray c').2.rest = more := by
  obtain ⟨rest, offset⟩ := c
  obtain ⟨x, cs, rfl⟩ := List.exists_cons_of_ne_nil hc
  refine ⟨x :: cs.takeWhile isStray, ?_, fun ⟨rest', offset'⟩ more htrails hc' => ?_⟩
  · show x :: cs = x :: (cs.takeWhile isStray ++ cs.dropWhile isStray)
    rw [List.takeWhile_append_dropWhile]
  · subst hc'
    have hstop : StopsAt isStray more :=
      htrails.stopsAt (fun _ => isSolid_of_isStray) (stopsAt_dropWhile isStray cs)
    show String.ofList (x :: (cs.takeWhile isStray ++ more).takeWhile isStray) =
      String.ofList (x :: cs.takeWhile isStray) ∧
      (cs.takeWhile isStray ++ more).dropWhile isStray = more
    rw [hstop.takeWhile all_takeWhile, hstop.dropWhile all_takeWhile]
    exact ⟨rfl, rfl⟩

end Formula
