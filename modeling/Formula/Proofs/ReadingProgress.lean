import Formula.Node.Read
import Formula.Proofs.Outcome

/-!
# How far reading goes

A cursor moves on by whole characters: `c.Reaches d` if `d` is left when some characters of `c` have
been read, and its offset counts their bytes. All readers move so (`Reading.Forward`). An element
takes at least one character (`Level.Forward.readElement`), so a list of elements is read until none
is left (`readElements_stops`).
-/

namespace Formula

theorem byteLength_append (cs ds : List Char) :
    byteLength (cs ++ ds) = byteLength cs + byteLength ds := by
  induction cs with
  | nil => exact (Nat.zero_add _).symm
  | cons c cs ih =>
    show c.utf8Size + byteLength (cs ++ ds) = c.utf8Size + byteLength cs + byteLength ds
    rw [ih, Nat.add_assoc]

/-- The text is a name. -/
structure IsName (cs : List Char) : Prop where
  start : ∃ x rest, cs = x :: rest ∧ isNameStart x = true
  chars : ∀ x ∈ cs, isNameChar x = true

theorem isNameChar_of_isNameStart {x : Char} (h : isNameStart x = true) : isNameChar x = true := by
  simp only [isNameStart, isNameChar, Bool.or_eq_true, Char.isAlphanum] at h ⊢
  exact h.imp_left .inl

namespace Cursor

/-- The cursor `d` is left when some characters of `c` have been read. -/
def Reaches (c d : Cursor) : Prop :=
  ∃ used, c.rest = used ++ d.rest ∧ d.offset = c.offset + byteLength used

namespace Reaches

variable {c d e : Cursor}

theorem refl (c : Cursor) : c.Reaches c := ⟨[], rfl, rfl⟩

theorem trans (h : c.Reaches d) (h' : d.Reaches e) : c.Reaches e := by
  obtain ⟨used, hrest, hoffset⟩ := h
  obtain ⟨used', hrest', hoffset'⟩ := h'
  refine ⟨used ++ used', ?_, ?_⟩
  · rw [hrest, hrest', List.append_assoc]
  · rw [hoffset', hoffset, byteLength_append, Nat.add_assoc]

theorem length_le (h : c.Reaches d) : d.rest.length ≤ c.rest.length := by
  obtain ⟨used, hrest, -⟩ := h
  rw [hrest, List.length_append]
  omega

end Reaches

theorem reaches_span (p : Char → Bool) (c : Cursor) : c.Reaches (c.span p).2 :=
  ⟨c.rest.takeWhile p, List.takeWhile_append_dropWhile.symm, rfl⟩

theorem reaches_skipBlanks (c : Cursor) : c.Reaches c.skipBlanks := c.reaches_span isBlank

theorem peek?_of_sees {c : Cursor} {x : Char} (h : c.sees x = true) : c.peek? = some x :=
  of_decide_eq_true h

theorem rest_ne_nil {c : Cursor} {x : Char} (h : c.peek? = some x) : c.rest ≠ [] := by
  intro hnil
  rw [Cursor.peek?, hnil] at h
  cases h

theorem reaches_next (c : Cursor) : c.Reaches c.next := by
  obtain ⟨rest, offset⟩ := c
  cases rest with
  | nil => exact .refl _
  | cons x rest => exact ⟨[x], rfl, rfl⟩

theorem next_lt {c : Cursor} {x : Char} (h : c.peek? = some x) :
    c.next.rest.length < c.rest.length := by
  obtain ⟨rest, offset⟩ := c
  cases rest with
  | nil => cases h
  | cons y rest => exact Nat.lt_succ_self _

/-- What is read after the next character takes that character at least. -/
theorem after_next {c d : Cursor} {x : Char} (hc : c.peek? = some x) (hd : c.next.Reaches d) :
    c.Reaches d ∧ d.rest.length < c.rest.length :=
  ⟨c.reaches_next.trans hd, Nat.lt_of_le_of_lt hd.length_le (next_lt hc)⟩

theorem peek?_of_seesDotName {c : Cursor} (h : c.seesDotName = true) : ∃ x, c.peek? = some x := by
  obtain ⟨rest, offset⟩ := c
  cases rest with
  | nil => cases h
  | cons x rest => exact ⟨x, rfl⟩

theorem name_of_seesDotName {c : Cursor} (h : c.seesDotName = true) :
    ∃ x, c.next.peek? = some x ∧ isNameStart x = true := by
  obtain ⟨rest, offset⟩ := c
  rcases rest with _ | ⟨dot, _ | ⟨x, rest⟩⟩
  · cases h
  · cases h
  · exact ⟨x, rfl, ((Bool.and_eq_true _ _).mp h).2⟩

/-- Where a name starts, the run of its characters is one. -/
theorem isName_span {c : Cursor} {x : Char} (h : c.peek? = some x) (hx : isNameStart x = true) :
    IsName (c.span isNameChar).1 := by
  obtain ⟨rest, offset⟩ := c
  cases rest with
  | nil => cases h
  | cons y rest =>
    cases h
    have htake : (x :: rest).takeWhile isNameChar = x :: rest.takeWhile isNameChar :=
      List.takeWhile_cons_of_pos (isNameChar_of_isNameStart hx)
    exact ⟨⟨x, _, htake, hx⟩, List.all_eq_true.mp List.all_takeWhile⟩

/-- A name takes at least its first character. -/
theorem span_name_lt {c : Cursor} {x : Char} (h : c.peek? = some x) (hx : isNameStart x = true) :
    (c.span isNameChar).2.rest.length < c.rest.length := by
  have hchar := isNameChar_of_isNameStart hx
  obtain ⟨rest, offset⟩ := c
  cases rest with
  | nil => cases h
  | cons y rest =>
    cases h
    show ((x :: rest).dropWhile isNameChar).length < (x :: rest).length
    rw [List.dropWhile_cons_of_pos hchar]
    exact Nat.lt_succ_of_le (List.dropWhile_suffix isNameChar).length_le

theorem reaches_name? {c d : Cursor} {name : String} (h : c.name? = some (name, d)) :
    c.Reaches d := by
  unfold name? at h
  split at h
  · split at h
    · cases h
      exact c.reaches_span isNameChar
    · cases h
  · cases h

end Cursor

/-! ## Repetition -/

section

variable {ε σ α : Type} {size : σ → Nat} {step : σ → Except ε (Option (α × σ))}
  {s t : σ} {as : List α}

/-- A relation between the ends of each step holds between the ends of all. -/
theorem many_rel {R : σ → σ → Prop} (hrefl : ∀ s, R s s) (htrans : ∀ {s t u}, R s t → R t u → R s u)
    (hstep : ∀ s a t, step s = .ok (some (a, t)) → R s t) (h : many size step s = .ok (as, t)) :
    R s t := by
  fun_induction many size step s generalizing as t with
  | case1 => cases h
  | case2 =>
    cases h
    exact hrefl _
  | case3 => cases h
  | case4 s a t' hs hlt as' u hm ih =>
    cases h
    exact htrans (hstep _ _ _ hs) (ih hm)
  | case5 s a t' hs hlt =>
    cases h
    exact hstep _ _ _ hs

/-- If each step leaves less to read, repetition stops only where a step finds nothing. -/
theorem many_stops (hstep : ∀ s a t, step s = .ok (some (a, t)) → size t < size s)
    (h : many size step s = .ok (as, t)) : step t = .ok none := by
  fun_induction many size step s generalizing as t with
  | case1 => cases h
  | case2 s hs =>
    cases h
    exact hs
  | case3 => cases h
  | case4 s a t' hs hlt as' u hm ih =>
    cases h
    exact ih hm
  | case5 s a t' hs hlt => exact (hlt (hstep _ _ _ hs)).elim

end

/-! ## Literals -/

/-- Only ASCII characters are escaped. -/
theorem utf8Size_of_unescape? {c x : Char} (h : unescape? c = some x) : c.utf8Size = 1 := by
  unfold unescape? at h
  split at h
  · subst c; rfl
  split at h
  · subst c; rfl
  split at h
  · subst c; rfl
  split at h
  · subst c; rfl
  split at h
  · subst c; rfl
  split at h
  · subst c; rfl
  split at h
  · subst c; rfl
  · cases h

theorem reaches_escape {e x : Char} (hx : unescape? e = some x) (rest : List Char) (offset : Nat) :
    Cursor.Reaches ⟨'\\' :: e :: rest, offset⟩ ⟨rest, offset + 2⟩ := by
  refine ⟨['\\', e], rfl, ?_⟩
  show offset + 2 = offset + (Char.utf8Size '\\' + (e.utf8Size + 0))
  rw [utf8Size_of_unescape? hx]
  rfl

theorem readStringBody_reaches {opening offset : Nat} {cs xs : List Char} {d : Cursor}
    (h : readStringBody opening offset cs = .ok (xs, d)) : Cursor.Reaches ⟨cs, offset⟩ d := by
  fun_induction readStringBody opening offset cs generalizing xs d with
  | case1 => cases h
  | case2 offset rest =>
    cases h
    exact ⟨['"'], rfl, rfl⟩
  | case3 => cases h
  | case4 => cases h
  | case5 => cases h
  | case6 offset e rest x hx xs' after hbody hquote ih =>
    cases h
    exact (reaches_escape hx rest offset).trans (ih hbody)
  | case7 => cases h
  | case8 offset c rest hquote hslash xs' after hbody ih =>
    cases h
    exact Cursor.Reaches.trans ⟨[c], rfl, rfl⟩ (ih hbody)

theorem readString_reaches {c d : Cursor} {v : Value} (hc : c.peek? = some '"')
    (h : readString c = .ok (v, d)) : c.next.Reaches d := by
  obtain ⟨rest, offset⟩ := c
  cases rest with
  | nil => cases hc
  | cons x rest =>
    cases hc
    unfold readString at h
    split at h
    · cases h
    · rename_i hbody
      cases h
      exact readStringBody_reaches hbody

theorem takeSuffix_suffix (allowed : Suffix → Bool) (cs : List Char) :
    (takeSuffix allowed cs).2 <:+ cs := by
  unfold takeSuffix
  split
  · exact List.suffix_refl _
  · split
    · exact List.suffix_refl _
    · split
      · exact List.suffix_cons _ _
      · exact List.suffix_refl _

theorem takeRadix_suffix (base : Nat) (isDigit : Char → Bool) (cs : List Char) :
    (takeRadix base isDigit cs).2 <:+ cs := by
  have hrest := List.dropWhile_suffix isDigit (l := cs)
  unfold takeRadix
  simp only
  split
  · exact hrest
  · exact (takeSuffix_suffix _ _).trans hrest

/-- A fraction that is found takes at least the dot. -/
theorem takeFraction_suffix (cs : List Char) : (takeFraction cs).2 <:+ cs ∧
    ((takeFraction cs).1.isSome → (takeFraction cs).2.length < cs.length) := by
  unfold takeFraction
  split
  · rename_i dot rest
    split
    · have hrest := List.dropWhile_suffix Char.isDigit (l := rest)
      exact ⟨hrest.trans (List.suffix_cons _ _), fun _ => Nat.lt_succ_of_le hrest.length_le⟩
    · exact ⟨List.suffix_refl _, nofun⟩
  · exact ⟨List.suffix_refl _, nofun⟩

theorem takeSign_suffix (cs : List Char) : (takeSign cs).2 <:+ cs := by
  unfold takeSign
  split
  · split
    · exact List.suffix_cons _ _
    · split
      · exact List.suffix_cons _ _
      · exact List.suffix_refl _
  · exact List.suffix_refl _

theorem takeExponent_suffix (cs : List Char) : (takeExponent cs).2 <:+ cs := by
  unfold takeExponent
  split
  · rename_i e rest
    simp only
    split
    · exact (List.dropWhile_suffix _).trans ((takeSign_suffix rest).trans (List.suffix_cons _ _))
    · exact List.suffix_refl _
  · exact List.suffix_refl _

/-- A numeral takes at least one character. -/
theorem takeNumber_suffix {cs : List Char} (hcs : cs ≠ []) :
    (takeNumber cs).2 <:+ cs ∧ (takeNumber cs).2.length < cs.length := by
  have hpos := List.length_pos_iff.mpr hcs
  unfold takeNumber
  split
  · rename_i base isDigit hradix
    have hdrop := takeRadix_suffix base isDigit (cs.drop 2)
    refine ⟨hdrop.trans (List.drop_suffix 2 cs), ?_⟩
    have hlength := hdrop.length_le
    rw [List.length_drop] at hlength
    show (takeRadix base isDigit (cs.drop 2)).2.length < cs.length
    omega
  · unfold takeDecimal
    have hwhole := List.dropWhile_suffix Char.isDigit (l := cs)
    obtain ⟨hfraction, hlt⟩ := takeFraction_suffix (cs.dropWhile Char.isDigit)
    have hexponent := takeExponent_suffix (takeFraction (cs.dropWhile Char.isDigit)).2
    have hsuffix := takeSuffix_suffix (fun _ => true)
      (takeExponent (takeFraction (cs.dropWhile Char.isDigit)).2).2
    simp only
    split
    · refine ⟨List.drop_suffix 1 cs, ?_⟩
      rw [List.length_drop]
      omega
    · rename_i hnone
      have hall := hsuffix.trans hexponent
      refine ⟨hall.trans (hfraction.trans hwhole), ?_⟩
      refine Nat.lt_of_le_of_lt hall.length_le ?_
      -- there is a digit before the fraction, or a fraction
      cases hdigits : cs.takeWhile Char.isDigit with
      | nil =>
        rw [hdigits] at hnone
        have hsome : (takeFraction (cs.dropWhile Char.isDigit)).1.isSome := by
          simpa [Option.isNone_iff_eq_none, Option.isSome_iff_ne_none] using hnone
        exact Nat.lt_of_lt_of_le (hlt hsome) hwhole.length_le
      | cons digit digits =>
        have hsplit :=
          congrArg List.length (List.takeWhile_append_dropWhile (p := Char.isDigit) (l := cs))
        rw [hdigits, List.length_append, List.length_cons] at hsplit
        have := hfraction.length_le
        omega

theorem readNumber_reaches {c : Cursor} {x : Char} (hc : c.peek? = some x) :
    c.Reaches (readNumber c).2 ∧ (readNumber c).2.rest.length < c.rest.length := by
  obtain ⟨hsuffix, hlt⟩ := takeNumber_suffix (Cursor.rest_ne_nil hc)
  have hafter := List.dropWhile_suffix isNameChar (l := (takeNumber c.rest).2)
  refine ⟨?_, Nat.lt_of_le_of_lt hafter.length_le hlt⟩
  obtain ⟨used, hused⟩ := hafter.trans hsuffix
  refine ⟨used, hused.symm, ?_⟩
  show c.offset + byteLength (c.rest.take (c.rest.length -
    ((takeNumber c.rest).2.dropWhile isNameChar).length)) = _
  generalize (takeNumber c.rest).2.dropWhile isNameChar = after at hused
  rw [← hused, List.length_append, Nat.add_sub_cancel, List.take_left]

/-! ## Type arguments -/

/-- A relation between the ends of names, of dotted names and of lists holds between those of a type
name. -/
theorem readTypeName_rel {R : Cursor → Cursor → Prop} (hrefl : ∀ c, R c c)
    (htrans : ∀ {c d e}, R c d → R d e → R c e)
    (hname : ∀ {c d : Cursor} {name}, c.name? = some (name, d) → R c d)
    (hdot : ∀ {c : Cursor}, c.seesDotName = true → R c c.next)
    {list : Cursor → Except ListFault (List TypeName × Cursor)}
    (hlist : ∀ c ts d, c.sees '<' = true → list c = .ok (ts, d) → R c d) {c d : Cursor}
    {t : TypeName} (h : readTypeName list c = .ok (t, d)) : R c d := by
  unfold readTypeName at h
  split at h
  · cases h
  · rename_i first c₁ hfirst
    obtain ⟨⟨more, c₂⟩, hmore, h⟩ := Except.bind_ok h
    have hdots : R c₁ c₂ := by
      refine many_rel hrefl htrans (fun c name d hstep => ?_) hmore
      simp only [dotName, Except.ok.injEq] at hstep
      split at hstep
      · rename_i hsees
        exact htrans (hdot hsees) (hname hstep)
      · cases hstep
    have hpath := htrans (hname hfirst) hdots
    simp only at h
    split at h
    · rename_i hsees
      obtain ⟨⟨args, c₃⟩, hargs, h⟩ := Except.bind_ok h
      simp only at h
      split at h
      · cases h
        exact htrans hpath (hlist _ _ _ hsees hargs)
      · cases h
    · obtain ⟨⟨args, c₃⟩, hargs, h⟩ := Except.bind_ok h
      cases hargs
      simp only at h
      split at h
      · cases h
        exact hpath
      · cases h

theorem readTypeName_reaches {list : Cursor → Except ListFault (List TypeName × Cursor)}
    (hlist : ∀ c ts d, list c = .ok (ts, d) → c.Reaches d) {c d : Cursor} {t : TypeName}
    (h : readTypeName list c = .ok (t, d)) : c.Reaches d :=
  readTypeName_rel .refl .trans Cursor.reaches_name? (fun {c} _ => c.reaches_next)
    (fun c ts d _ => hlist c ts d) h

theorem readTypeList_reaches {room : Nat} {c d : Cursor} {ts : List TypeName}
    (h : readTypeList room c = .ok (ts, d)) : c.Reaches d := by
  induction room generalizing c d ts with
  | zero => cases h
  | succ room ih =>
    have hentry : ∀ (c : Cursor) t d, readTypeName (readTypeList room) c.skipBlanks = .ok (t, d) →
        c.Reaches d := fun c t d ht =>
      c.reaches_skipBlanks.trans (readTypeName_reaches (fun _ _ _ => ih) ht)
    obtain ⟨⟨first, c₁⟩, hfirst, h⟩ := Except.bind_ok h
    obtain ⟨⟨more, c₂⟩, hmore, h⟩ := Except.bind_ok h
    have hall : c.Reaches c₂ := by
      refine (c.reaches_next.trans (hentry _ _ _ hfirst)).trans ?_
      refine many_rel .refl .trans (fun c t d hstep => ?_) hmore
      split at hstep
      · obtain ⟨⟨t', d'⟩, ht, he⟩ := Except.map_ok hstep
        cases he
        exact c.reaches_skipBlanks.trans (c.skipBlanks.reaches_next.trans (hentry _ _ _ ht))
      · cases hstep
    simp only at h
    split at h
    · cases h
      exact hall.trans (c₂.reaches_skipBlanks.trans c₂.skipBlanks.reaches_next)
    · cases h

theorem typeArguments?_reaches {limit room : Nat} {c d : Cursor} {generics : Option (List TypeName)}
    (h : typeArguments? limit room c = .ok (generics, d)) : c.Reaches d := by
  unfold typeArguments? at h
  split at h
  · split at h
    · rename_i hlist
      cases h
      exact readTypeList_reaches hlist
    · cases h
      exact .refl _
    · cases h
  · cases h
    exact .refl _

/-! ## Readers -/

/-- Whatever is read, the cursor moves on. -/
def Reading.Forward {α : Type} (read : Reading α) : Prop :=
  ∀ r a s, read r = .ok (a, s) → r.cursor.Reaches s.cursor

/-- Whatever is found, the cursor moves on by one character at least. -/
def Probing.Forward {α : Type} (read : Probing α) : Prop :=
  ∀ r a s, read r = .ok (some (a, s)) → r.cursor.Reaches s.cursor ∧ s.size < r.size

/-- Readers of a level move on. -/
structure Level.Forward (level : Level) : Prop where
  typeArguments {c d : Cursor} {generics : Option (List TypeName)} :
    level.typeArguments c = .ok (generics, d) → c.Reaches d
  enter {inner : Reading (List Node)} : level.enter = .ok inner → inner.Forward

theorem Probing.Forward.many {α : Type} {step : Probing α} (h : step.Forward) :
    Reading.Forward (Formula.many Reader.size step) := by
  intro r as s hr
  exact many_rel (R := fun r s : Reader => r.cursor.Reaches s.cursor) (fun r => .refl r.cursor)
    (fun h h' => h.trans h') (fun r a s hs => (h r a s hs).1) hr

theorem Probing.Forward.many_stops {α : Type} {step : Probing α} (h : step.Forward) {r s : Reader}
    {as : List α} (hr : Formula.many Reader.size step r = .ok (as, s)) : step s = .ok none :=
  Formula.many_stops (fun r a s hs => (h r a s hs).2) hr

namespace Level.Forward

variable {level : Level} (h : level.Forward)

include h

omit h in
theorem readArgument {inner : Reading (List Node)} (h : inner.Forward) :
    Reading.Forward (readArgument inner) := by
  intro r n s hr
  obtain ⟨⟨items, r₁⟩, hi, hr⟩ := Except.bind_ok hr
  simp only at hr
  split at hr
  · cases hr
  · cases hr
    exact h r items r₁ hi

omit h in
theorem readNextArgument {inner : Reading (List Node)} (h : inner.Forward) :
    Probing.Forward (readNextArgument inner) := by
  intro r n s hr
  unfold Formula.readNextArgument at hr
  split at hr
  · rename_i hcomma
    obtain ⟨⟨n', r₁⟩, hn, he⟩ := Except.map_ok hr
    cases he
    have hblanks := r.cursor.reaches_skipBlanks
    obtain ⟨hreaches, hlt⟩ :=
      Cursor.after_next (Cursor.peek?_of_sees hcomma) (readArgument h _ _ _ hn)
    exact ⟨hblanks.trans hreaches, Nat.lt_of_lt_of_le hlt hblanks.length_le⟩
  · cases hr

theorem readArguments (close : Char) : Reading.Forward (readArguments level close) := by
  intro r ns s hr
  obtain ⟨inner, hi, hr⟩ := Except.bind_ok hr
  have hinner := h.enter hi
  have hstart := r.cursor.reaches_skipBlanks
  simp only at hr
  split at hr
  · cases hr
    exact hstart.trans r.cursor.skipBlanks.reaches_next
  · obtain ⟨⟨first, r₁⟩, h₁, hr⟩ := Except.bind_ok hr
    obtain ⟨⟨more, r₂⟩, h₂, hr⟩ := Except.bind_ok hr
    simp only at hr
    split at hr
    · cases hr
      have hmore := (readNextArgument hinner).many _ _ _ h₂
      exact ((hstart.trans (readArgument hinner _ _ _ h₁)).trans hmore).trans
        (r₂.cursor.reaches_skipBlanks.trans r₂.cursor.skipBlanks.reaches_next)
    · cases hr

theorem readIndexer : Probing.Forward (readIndexer level) := by
  intro r segment s hr
  unfold Formula.readIndexer at hr
  split at hr
  · rename_i hbracket
    obtain ⟨⟨args, r₁⟩, h₁, hr⟩ := Except.bind_ok hr
    simp only at hr
    split at hr
    · cases hr
    · cases hr
      exact Cursor.after_next (Cursor.peek?_of_sees hbracket) (h.readArguments ']' _ _ _ h₁)
  · cases hr

/-- What is read after the characters of a name. -/
theorem readNamed {r s : Reader} {segment : Segment Node}
    (hr : readNamed level r = .ok (segment, s)) :
    (r.cursor.span isNameChar).2.Reaches s.cursor := by
  obtain ⟨⟨generics, cursor⟩, h₁, hr⟩ := Except.bind_ok hr
  have htypes := h.typeArguments h₁
  simp only at hr
  split at hr
  · obtain ⟨⟨args, r₁⟩, h₂, hr⟩ := Except.bind_ok hr
    cases hr
    exact htypes.trans (cursor.reaches_next.trans (h.readArguments ')' _ _ _ h₂))
  · cases hr
    exact htypes

theorem readSegments {r s : Reader} {segments : List (Segment Node)}
    (hr : readSegments level r = .ok (segments, s)) :
    (r.cursor.span isNameChar).2.Reaches s.cursor := by
  obtain ⟨⟨named, r₁⟩, h₁, hr⟩ := Except.bind_ok hr
  obtain ⟨⟨indexers, r₂⟩, h₂, hr⟩ := Except.bind_ok hr
  cases hr
  exact (h.readNamed h₁).trans (h.readIndexer.many _ _ _ h₂)

theorem readNextSegments : Probing.Forward (readNextSegments level) := by
  intro r segments s hr
  unfold Formula.readNextSegments at hr
  split at hr
  · rename_i hdot
    obtain ⟨⟨segments', r₁⟩, h₁, he⟩ := Except.map_ok hr
    cases he
    obtain ⟨x, hx⟩ := Cursor.peek?_of_seesDotName hdot
    exact Cursor.after_next hx ((Cursor.reaches_span _ _).trans (h.readSegments h₁))
  · cases hr

theorem readRoute {r s : Reader} {n : Node} (hr : readRoute level r = .ok (n, s)) :
    (r.cursor.span isNameChar).2.Reaches s.cursor := by
  obtain ⟨⟨first, r₁⟩, h₁, hr⟩ := Except.bind_ok hr
  obtain ⟨⟨more, r₂⟩, h₂, hr⟩ := Except.bind_ok hr
  cases hr
  exact (h.readSegments h₁).trans (h.readNextSegments.many r₁ more r₂ h₂)

theorem readParentheses {r s : Reader} {n : Node} (hr : readParentheses level r = .ok (n, s)) :
    r.cursor.next.Reaches s.cursor := by
  obtain ⟨inner, hi, hr⟩ := Except.bind_ok hr
  obtain ⟨⟨items, r₁⟩, h₁, hr⟩ := Except.bind_ok hr
  simp only at hr
  split at hr
  · cases hr
  · split at hr
    · cases hr
    · cases hr
      exact (h.enter hi _ _ _ h₁).trans
        (r₁.cursor.reaches_skipBlanks.trans r₁.cursor.skipBlanks.reaches_next)

/-- An element is read from its first character on, and takes that character at least. -/
theorem readElementAt {r s : Reader} {c : Char} {n : Node} (hc : r.cursor.peek? = some c)
    (hr : readElementAt level c r = .ok (n, s)) :
    r.cursor.Reaches s.cursor ∧ s.size < r.size := by
  have hfirst : ∀ {d : Cursor}, r.cursor.next.Reaches d →
      r.cursor.Reaches d ∧ d.rest.length < r.cursor.rest.length := Cursor.after_next hc
  unfold Formula.readElementAt at hr
  simp only at hr
  split at hr
  · exact hfirst (h.readParentheses hr)
  · split at hr
    · rename_i hquote
      split at hr
      · cases hr
      · rename_i value after hstring
        cases hr
        rw [hquote] at hc
        exact hfirst (readString_reaches hc hstring)
    · split at hr
      · split at hr
        · cases hr
        · cases hr
          exact readNumber_reaches hc
      · split at hr
        · rename_i hname
          have hspan := h.readRoute hr
          exact ⟨(r.cursor.reaches_span _).trans hspan,
            Nat.lt_of_le_of_lt hspan.length_le (Cursor.span_name_lt hc hname)⟩
        · split at hr
          · cases hr
            exact hfirst (.refl _)
          · cases hr
            exact hfirst (Cursor.reaches_span _ _)

theorem readElement : Probing.Forward (readElement level) := by
  intro r n s hr
  unfold Formula.readElement at hr
  simp only at hr
  split at hr
  · cases hr
  · rename_i c hc
    split at hr
    · cases hr
    · obtain ⟨⟨n', s'⟩, hn, he⟩ := Except.map_ok hr
      cases he
      obtain ⟨hreaches, hlt⟩ := h.readElementAt hc hn
      have hblanks := r.cursor.reaches_skipBlanks
      exact ⟨hblanks.trans hreaches, Nat.lt_of_lt_of_le hlt hblanks.length_le⟩

end Level.Forward

/-- What reading elements uses, with `room` levels of nesting left of `limit`. -/
def levelAt (limit : Nat) : (room : Nat) → Level
  | 0 => ⟨typeArguments? limit 0, .error (.limitExceeded .nestingDepth limit)⟩
  | room + 1 => ⟨typeArguments? limit (room + 1), .ok (readElements limit room)⟩

theorem readElements_eq (limit room : Nat) :
    readElements limit room = many Reader.size (readElement (levelAt limit room)) := by
  cases room <;> rfl

theorem levelAt_typeArguments (limit room : Nat) :
    (levelAt limit room).typeArguments = typeArguments? limit room := by
  cases room <;> rfl

theorem levelAt_forward (limit room : Nat) : (levelAt limit room).Forward := by
  induction room with
  | zero =>
    refine ⟨fun h => ?_, nofun⟩
    rw [levelAt_typeArguments] at h
    exact typeArguments?_reaches h
  | succ room ih =>
    refine ⟨fun h => ?_, fun h => ?_⟩
    · rw [levelAt_typeArguments] at h
      exact typeArguments?_reaches h
    · cases h
      rw [readElements_eq]
      exact ih.readElement.many

/-- A text is read if all of it is, up to blanks, and there is something in it. -/
theorem Node.ofSource_ok_iff {limit nodes : Nat} {source : String} {root : Node} :
    Node.ofSource limit source = .ok (root, nodes) ↔ ∃ items r,
      readElements limit limit ⟨.start source, 0⟩ = .ok (items, r) ∧
        r.skipBlanks.cursor.peek? = none ∧ items ≠ [] ∧
        root = .block (r.skipBlanks.mark 0) items ∧ nodes = r.nodes + 1 := by
  constructor
  · intro h
    obtain ⟨⟨items, r⟩, hread, h⟩ := Except.bind_ok h
    simp only at h
    split at h
    · cases h
    rename_i hend
    split at h
    · cases h
    rename_i hne
    cases h
    exact ⟨items, r, hread, hend, by simpa using hne, rfl, rfl⟩
  · rintro ⟨items, r, hread, hend, hne, rfl, rfl⟩
    have hempty : items.isEmpty = false := by simpa using hne
    simp only [Node.ofSource, hread, bind, Except.bind, hend, hempty]
    rfl

end Formula
