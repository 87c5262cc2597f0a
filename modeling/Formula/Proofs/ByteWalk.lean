import Formula.Proofs.Bytes
import Formula.Proofs.Reading
import Formula.Proofs.Marks
import Formula.Proofs.ReadingAlike

/-!
# Reading byte by byte

All readers look at one character after the other, so they can walk the bytes of a text as well.
They find the same elements there, and stop at the same places (`Level.Bytewise.readElement`): no
element begins, ends or is given up inside a character. The texts in the tree are then bytes in
place of characters (`Node.inBytes`), so what is copied out of a string literal is the encoding of a
text. `Node.ofSource_bytes` says this of a whole text.
-/

namespace Formula

/-! ## Cursors -/

/-- The cursor `c'` stands before the bytes of the text that `c` stands before, which ends
`text`. -/
structure Cursor.Bytewise (text : List Char) (c c' : Cursor) : Prop where
  suffix : c.rest <:+ text
  rest : c'.rest = bytesOf c.rest

namespace Cursor.Bytewise

variable {text : List Char} {c c' : Cursor} (h : c.Bytewise text c')

include h

theorem of_suffix {d d' : Cursor} (hd : d.rest <:+ c.rest) (hrest : d'.rest = bytesOf d.rest) :
    d.Bytewise text d' := ⟨hd.trans h.suffix, hrest⟩

theorem span {p : Char → Bool} (hp : Uniform p) :
    (c'.span p).1 = bytesOf (c.span p).1 ∧ (c.span p).2.Bytewise text (c'.span p).2 := by
  refine ⟨?_, h.of_suffix (List.dropWhile_suffix p) ?_⟩
  · show c'.rest.takeWhile p = bytesOf (c.rest.takeWhile p)
    rw [h.rest, takeWhile_bytesOf hp]
  · show c'.rest.dropWhile p = bytesOf (c.rest.dropWhile p)
    rw [h.rest, dropWhile_bytesOf hp]

theorem skipBlanks : c.skipBlanks.Bytewise text c'.skipBlanks := (h.span (.inl inAscii_isBlank)).2

theorem any_peek? {p : Char → Bool} (hp : InAscii p) : c'.peek?.any p = c.peek?.any p := by
  unfold Cursor.peek?
  rw [h.rest, hp.any_head?_bytesOf]

theorem sees_eq {x : Char} (hx : IsAscii x) : c'.sees x = c.sees x := by
  have hany := h.any_peek? (inAscii_eq hx)
  unfold Cursor.sees
  rcases hc : c.peek? with _ | y <;> rcases hc' : c'.peek? with _ | y' <;> simp_all

theorem next {x : Char} (hc : c.peek? = some x) (hx : IsAscii x) :
    c.next.Bytewise text c'.next := by
  obtain ⟨rest, offset⟩ := c
  obtain ⟨rest', offset'⟩ := c'
  cases rest with
  | nil => cases hc
  | cons y rest =>
    cases hc
    have hrest : rest' = x :: bytesOf rest := h.rest.trans (bytesOf_cons_ascii hx rest)
    subst hrest
    exact h.of_suffix (List.suffix_cons x rest) rfl

theorem next_of_sees {x : Char} (hc : c.sees x = true) (hx : IsAscii x) :
    c.next.Bytewise text c'.next :=
  h.next (peek?_of_sees hc) hx

theorem seesDotName_eq : c'.seesDotName = c.seesDotName := by
  unfold Cursor.seesDotName
  rw [h.rest]
  rcases c.rest with _ | ⟨dot, rest⟩
  · rfl
  rcases bytesOf_first dot rest with ⟨-, hbytes⟩ | ⟨hdot, b, bs, hbytes, hb⟩
  · rw [hbytes]
    rcases rest with _ | ⟨x, rest⟩
    · rfl
    rcases bytesOf_first x rest with ⟨-, hbytes⟩ | ⟨hx, b, bs, hbytes, hb⟩
    · rw [hbytes]
    · rw [hbytes]
      simp only [inAscii_isNameStart.eq_false hx, inAscii_isNameStart.eq_false hb]
  · rw [hbytes]
    have hdots : dot ≠ '.' ∧ b ≠ '.' :=
      ⟨ne_of_not_isAscii hdot (by decide), ne_of_not_isAscii hb (by decide)⟩
    cases bs <;> cases rest <;> simp [hdots]

omit h in
theorem name?_eq (c : Cursor) : c.name? = if c.peek?.any isNameStart then
    some (String.ofList (c.span isNameChar).1, (c.span isNameChar).2) else none := by
  unfold Cursor.name?
  cases c.peek? <;> rfl

theorem name? : Option.Rel (SameResult (Cursor.Bytewise text)) c.name? c'.name? := by
  rw [name?_eq, name?_eq, h.any_peek? inAscii_isNameStart]
  split
  · refine .some ⟨?_, (h.span (.inl inAscii_isNameChar)).2⟩
    show String.ofList (c'.rest.takeWhile isNameChar) = String.ofList (c.rest.takeWhile isNameChar)
    rw [h.rest, inAscii_isNameChar.takeWhile_bytesOf]
  · exact .none

end Cursor.Bytewise

theorem isAscii_typeMarks : ∀ x ∈ typeMarks, IsAscii x := isAscii_of_all rfl

theorem Cursor.peek?_dot {c : Cursor} (h : c.seesDotName = true) : c.peek? = some '.' := by
  obtain ⟨rest, offset⟩ := c
  rcases rest with _ | ⟨dot, _ | ⟨x, rest⟩⟩
  · cases h
  · cases h
  · have hdot : dot = '.' := of_decide_eq_true ((Bool.and_eq_true _ _).mp h).1
    exact congrArg some hdot

theorem Cursor.alike_bytewise (text : List Char) : Cursor.Alike (Cursor.Bytewise text) where
  skipBlanks h := h.skipBlanks
  sees_eq h hx := h.sees_eq (isAscii_typeMarks _ hx)
  next_of_sees h hx hc := h.next_of_sees hc (isAscii_typeMarks _ hx)
  seesDotName_eq h := h.seesDotName_eq
  next_of_seesDotName h hdot := h.next (Cursor.peek?_dot hdot) (by decide)
  name? h := h.name?
  length_lt_iff h h' := by
    rw [h.rest, h'.rest]
    exact length_bytesOf_lt_iff h.suffix h'.suffix

/-! ## Outcomes -/

/-- Two outcomes: errors, or results that compare. -/
def Parallel {ε α β : Type} (R : α → β → Prop) : Except ε α → Except ε β → Prop
  | .ok a, .ok b => R a b
  | .error _, .error _ => True
  | _, _ => False

namespace Parallel

variable {ε α β γ δ : Type} {R : α → β → Prop} {R' : γ → δ → Prop} {x : Except ε α} {y : Except ε β}

theorem cases (h : Parallel R x y) :
    (∃ e e', x = .error e ∧ y = .error e') ∨ ∃ a b, x = .ok a ∧ y = .ok b ∧ R a b := by
  cases x with
  | error e =>
    cases y with
    | error e' => exact .inl ⟨e, e', rfl, rfl⟩
    | ok b => exact h.elim
  | ok a =>
    cases y with
    | error e' => exact h.elim
    | ok b => exact .inr ⟨a, b, rfl, rfl, h⟩

theorem of_same (h : SameOutcome R x y) : Parallel R x y := by
  cases x with
  | error e =>
    cases y with
    | error e' => trivial
    | ok b => exact h.elim
  | ok a =>
    cases y with
    | error e' => exact h.elim
    | ok b => exact h

theorem bind {f : α → Except ε γ} {g : β → Except ε δ} (h : Parallel R x y)
    (hf : ∀ a b, R a b → Parallel R' (f a) (g b)) : Parallel R' (x >>= f) (y >>= g) := by
  rcases h.cases with ⟨e, e', rfl, rfl⟩ | ⟨a, b, rfl, rfl, hab⟩
  · trivial
  · exact hf a b hab

theorem map {f : α → γ} {g : β → δ} (h : Parallel R x y) (hf : ∀ a b, R a b → R' (f a) (g b)) :
    Parallel R' (x.map f) (y.map g) := by
  rcases h.cases with ⟨e, e', rfl, rfl⟩ | ⟨a, b, rfl, rfl, hab⟩
  · trivial
  · exact hf a b hab

/-- What else is known of a result may be used to compare it. -/
theorem imp {S : α → β → Prop} (h : Parallel R x y) (hS : ∀ a b, x = .ok a → R a b → S a b) :
    Parallel S x y := by
  rcases h.cases with ⟨e, e', rfl, rfl⟩ | ⟨a, b, rfl, rfl, hab⟩
  · trivial
  · exact hS a b rfl hab

end Parallel

/-! ## Literals -/

section

variable {text : List Char}

/-- A character that is neither a quote nor a backslash stands for itself. -/
theorem readStringBody_char {c : Char} (hquote : c ≠ '"') (hslash : c ≠ '\\') (opening offset : Nat)
    (rest : List Char) :
    readStringBody opening offset (c :: rest) =
      (readStringBody opening (offset + c.utf8Size) rest).map fun x => (c :: x.1, x.2) := by
  rw [readStringBody.eq_def]
  simp only [if_neg hquote, if_neg hslash]
  cases readStringBody opening (offset + c.utf8Size) rest <;> rfl

private theorem readStringBody_escape {e x : Char} (hx : unescape? e = some x)
    (opening offset : Nat) (rest : List Char) :
    readStringBody opening offset ('\\' :: e :: rest) =
      (readStringBody opening (offset + 2) rest).map fun y => (x :: y.1, y.2) := by
  rw [readStringBody, if_neg (by decide), if_pos rfl]
  simp only [hx]
  cases readStringBody opening (offset + 2) rest <;> rfl

theorem readStringBody_bytes {bs : List Char} (hbs : ∀ b ∈ bs, ¬ IsAscii b) (opening offset : Nat)
    (rest : List Char) :
    ∃ offset', readStringBody opening offset (bs ++ rest) =
      (readStringBody opening offset' rest).map fun x => (bs ++ x.1, x.2) := by
  induction bs generalizing offset with
  | nil =>
    refine ⟨offset, ?_⟩
    rw [List.nil_append]
    cases readStringBody opening offset rest <;> rfl
  | cons b bs ih =>
    obtain ⟨hb, hbs⟩ := List.forall_mem_cons.mp hbs
    obtain ⟨offset', h⟩ := ih hbs (offset + b.utf8Size)
    refine ⟨offset', ?_⟩
    have hquote : b ≠ '"' := ne_of_not_isAscii hb (by decide)
    have hslash : b ≠ '\\' := ne_of_not_isAscii hb (by decide)
    rw [List.cons_append, readStringBody_char hquote hslash, h]
    cases readStringBody opening offset' rest <;> rfl

/-- All bytes of such a character are copied. -/
theorem readStringBody_byteChars {c : Char} (hquote : c ≠ '"') (hslash : c ≠ '\\')
    (opening offset : Nat) (rest : List Char) :
    ∃ offset', readStringBody opening offset (byteChars c ++ rest) =
      (readStringBody opening offset' rest).map fun x => (byteChars c ++ x.1, x.2) := by
  by_cases hc : IsAscii c
  · rw [byteChars_of_isAscii hc]
    exact ⟨_, readStringBody_char hquote hslash opening offset rest⟩
  · exact readStringBody_bytes (not_isAscii_of_mem_byteChars hc) opening offset rest

theorem readStringBody_unknown {e : Char} (h : unescape? e = none) (opening offset : Nat)
    (rest : List Char) :
    ∃ error, readStringBody opening offset ('\\' :: e :: rest) = .error error := by
  rw [readStringBody, if_neg (by decide), if_pos rfl]
  simp only [h]
  exact ⟨_, rfl⟩

theorem isAscii_of_unescape? {e x : Char} (h : unescape? e = some x) : IsAscii e ∧ IsAscii x := by
  unfold unescape? at h
  split_ifs at h
  all_goals
    cases h
    subst e
    decide

theorem unescape?_of_not_isAscii {e : Char} (h : ¬ IsAscii e) : unescape? e = none :=
  Option.eq_none_iff_forall_ne_some.mpr fun _ hx => h (isAscii_of_unescape? hx).1

/-- An escape that is refused is refused by its first byte. -/
theorem readStringBody_unknown_bytes {e : Char} (h : unescape? e = none) (opening offset : Nat)
    (rest : List Char) :
    ∃ error, readStringBody opening offset ('\\' :: bytesOf (e :: rest)) = .error error := by
  rcases bytesOf_first e rest with ⟨-, hbytes⟩ | ⟨-, b, bs, hbytes, hb⟩
  · rw [hbytes]
    exact readStringBody_unknown h opening offset (bytesOf rest)
  · rw [hbytes]
    exact readStringBody_unknown (unescape?_of_not_isAscii hb) opening offset bs

/-- The second string body is that of the first in bytes, and the cursors stand at one place. -/
def SameBody (text : List Char) (x y : List Char × Cursor) : Prop :=
  y.1 = bytesOf x.1 ∧ x.2.Bytewise text y.2

theorem Parallel.body_cons {x y : Except BuildError (List Char × Cursor)}
    (h : Parallel (SameBody text) x y) (c : Char) :
    Parallel (SameBody text) (x.map fun x => (c :: x.1, x.2))
      (y.map fun y => (byteChars c ++ y.1, y.2)) := by
  refine h.map ?_
  rintro ⟨xs, d⟩ ⟨xs', d'⟩ ⟨rfl, hd⟩
  exact ⟨(bytesOf_cons c xs).symm, hd⟩

/-- The bytes of a text are copied as those of what is read. -/
theorem readStringBody_bytewise (opening opening' : Nat) : ∀ {cs : List Char}, cs <:+ text →
    ∀ offset offset' : Nat, Parallel (SameBody text) (readStringBody opening offset cs)
      (readStringBody opening' offset' (bytesOf cs))
  | [], _, _, _ => trivial
  | c :: rest, hcs, offset, offset' => by
    have hrest := (List.suffix_cons c rest).trans hcs
    by_cases hquote : c = '"'
    · subst hquote
      rw [bytesOf_cons_ascii (by decide), readStringBody.eq_def, readStringBody.eq_def opening']
      exact ⟨rfl, hrest, rfl⟩
    by_cases hslash : c = '\\'
    · subst hslash
      rw [bytesOf_cons_ascii (by decide)]
      cases rest with
      | nil => trivial
      | cons e rest =>
        cases hx : unescape? e with
        | none =>
          obtain ⟨error, herror⟩ := readStringBody_unknown hx opening offset rest
          obtain ⟨error', herror'⟩ := readStringBody_unknown_bytes hx opening' offset' rest
          rw [herror, herror']
          trivial
        | some x =>
          obtain ⟨he, hascii⟩ := isAscii_of_unescape? hx
          have hbody :=
            readStringBody_bytewise opening opening' ((List.suffix_cons e rest).trans hrest)
            (offset + 2) (offset' + 2)
          have hcons := hbody.body_cons x
          rw [byteChars_of_isAscii hascii] at hcons
          rw [bytesOf_cons_ascii he, readStringBody_escape hx, readStringBody_escape hx]
          exact hcons
    · obtain ⟨offset₁, h⟩ := readStringBody_byteChars hquote hslash opening' offset' (bytesOf rest)
      rw [readStringBody_char hquote hslash, bytesOf_cons, h]
      exact (readStringBody_bytewise opening opening' hrest _ _).body_cons c

/-- A value with bytes in place of the characters of a text. -/
def Value.inBytes : Value → Value
  | .str s => .str (byteText s)
  | v => v

theorem readString_bytewise {c c' : Cursor} (hc : c.peek? = some '"') (h : c.Bytewise text c') :
    Parallel (fun x y => y.1 = x.1.inBytes ∧ x.2.Bytewise text y.2)
      (readString c) (readString c') := by
  have hnext := h.next hc (by decide)
  have hbody :=
    readStringBody_bytewise c.offset c'.offset hnext.suffix (c.offset + 1) (c'.offset + 1)
  rw [← hnext.rest] at hbody
  have heq : ∀ c : Cursor, readString c = (readStringBody c.offset (c.offset + 1) c.next.rest).map
      fun x => (.str (String.ofList x.1), x.2) := fun c => by
    unfold readString
    cases readStringBody c.offset (c.offset + 1) c.next.rest <;> rfl
  rw [heq c, heq c']
  refine hbody.map ?_
  rintro ⟨xs, d⟩ ⟨xs', d'⟩ ⟨rfl, hd⟩
  exact ⟨by rw [Value.inBytes, byteText_ofList], hd⟩

/-- A lexeme with bytes in place of characters. -/
def Lexeme.inBytes : Lexeme → Lexeme
  | .constant value => .constant value.inBytes
  | .unresolved raw => .unresolved (byteText raw)

theorem Value.IsNumberLiteral.inBytes_eq {v : Value} (h : v.IsNumberLiteral) : v.inBytes = v := by
  cases v with
  | str s => cases h.2
  | _ => rfl

private theorem take_length_sub_length (used after : List Char) :
    (used ++ after).take ((used ++ after).length - after.length) = used := by
  rw [List.length_append, Nat.add_sub_cancel, List.take_left]

theorem readNumber_bytewise {c c' : Cursor} {x : Char} (hc : c.peek? = some x) (hx : IsAscii x)
    (h : c.Bytewise text c') :
    (readNumber c').1 = (readNumber c).1.map Lexeme.inBytes ∧
      (readNumber c).2.Bytewise text (readNumber c').2 := by
  obtain ⟨rest, hrest⟩ := List.head?_eq_some_iff.mp (show c.rest.head? = some x from hc)
  have hnumber :
      takeNumber (bytesOf c.rest) = ((takeNumber c.rest).1, bytesOf (takeNumber c.rest).2) := by
    rw [hrest]
    exact takeNumber_bytesOf hx rest
  have hvalue : ∀ v, (takeNumber c.rest).1 = .ok (some v) → v.inBytes = v := fun v hv =>
    (isNumberLiteral_of_takeNumber hv).inBytes_eq
  have hsuffix := (takeNumber_suffix (Cursor.rest_ne_nil hc)).1
  have hend := List.dropWhile_suffix isNameChar (l := (takeNumber c.rest).2)
  have hlength := length_bytesOf_eq_iff hend
  obtain ⟨used, hused⟩ := hend.trans hsuffix
  have hraw := take_length_sub_length used ((takeNumber c.rest).2.dropWhile isNameChar)
  have hraw' :=
    take_length_sub_length (bytesOf used) (bytesOf ((takeNumber c.rest).2.dropWhile isNameChar))
  rw [hused] at hraw
  rw [← bytesOf_append, hused] at hraw'
  unfold readNumber
  simp only [h.rest, hnumber, inAscii_isNameChar.dropWhile_bytesOf, hraw, hraw', hlength]
  refine ⟨?_, h.of_suffix ⟨used, hused⟩ rfl⟩
  have hunresolved : Lexeme.unresolved (String.ofList (bytesOf used)) =
      (Lexeme.unresolved (String.ofList used)).inBytes :=
    congrArg Lexeme.unresolved (byteText_ofList used).symm
  rcases hfound : (takeNumber c.rest).1 with trap | _ | v
  · rfl
  · exact congrArg Except.ok hunresolved
  · simp only [Except.map]
    split
    · rw [Lexeme.inBytes, hvalue v hfound]
    · rw [hunresolved]

theorem readStray_bytewise {c c' : Cursor} {x : Char} (hc : c.peek? = some x)
    (h : c.Bytewise text c') :
    (readStray c').1 = byteText (readStray c).1 ∧
      (readStray c).2.Bytewise text (readStray c').2 := by
  obtain ⟨rest, offset⟩ := c
  obtain ⟨rest', offset'⟩ := c'
  cases rest with
  | nil => cases hc
  | cons y rest =>
    cases hc
    obtain ⟨b, bs, hb⟩ := List.exists_cons_of_ne_nil (byteChars_ne_nil x)
    have hbs : ∀ b ∈ bs, isStray b = true := by
      by_cases hx : IsAscii x
      · rw [byteChars_of_isAscii hx] at hb
        cases hb
        simp
      · intro d hd
        have hascii := not_isAscii_of_mem_byteChars hx d (hb ▸ List.mem_cons_of_mem b hd)
        exact isStray_of_not_isAscii hascii
    have hrest : rest' = b :: (bs ++ bytesOf rest) := by
      refine h.rest.trans ?_
      rw [bytesOf_cons, hb, List.cons_append]
    subst hrest
    have hrun :
        (bs ++ bytesOf rest).takeWhile isStray = bs ++ bytesOf (rest.takeWhile isStray) := by
      rw [List.takeWhile_append_of_pos hbs, takeWhile_bytesOf (.inr inAscii_not_isStray)]
    have hafter : (bs ++ bytesOf rest).dropWhile isStray = bytesOf (rest.dropWhile isStray) := by
      rw [List.dropWhile_append_of_pos hbs, dropWhile_bytesOf (.inr inAscii_not_isStray)]
    refine ⟨?_, h.of_suffix
      ((List.dropWhile_suffix isStray).trans (List.suffix_cons x rest)) hafter⟩
    show String.ofList (b :: (bs ++ bytesOf rest).takeWhile isStray) =
      byteText (String.ofList (x :: rest.takeWhile isStray))
    rw [hrun, byteText_ofList, bytesOf_cons, hb, List.cons_append]

end

/-! ## Trees -/

namespace Node

mutual

/-- A tree without marks, with bytes in place of the characters of its texts. -/
def inBytes : Node → Node
  | .constant _ v => .constant default v.inBytes
  | .operator _ op => .operator default op
  | .cast _ _ target signs operand =>
    .cast default default target (signs.map fun sign => (default, sign.2)) (inBytes operand)
  | .route _ head segments => .route default head (inBytesSegments segments)
  | .block _ items => .block default (inBytesAll items)
  | .unresolved _ raw => .unresolved default (byteText raw)

/-- `inBytes` of each node of a list. -/
def inBytesAll : List Node → List Node
  | [] => []
  | n :: ns => inBytes n :: inBytesAll ns

/-- `inBytes` of the arguments of each segment; names stay what they are. -/
def inBytesSegments : List (Segment Node) → List (Segment Node)
  | [] => []
  | .member _ name generics :: rest => .member default name generics :: inBytesSegments rest
  | .method _ name generics args :: rest =>
    .method default name generics (inBytesAll args) :: inBytesSegments rest
  | .indexer _ args :: rest => .indexer default (inBytesAll args) :: inBytesSegments rest

end

theorem inBytesAll_eq_map (ns : List Node) : inBytesAll ns = ns.map inBytes := by
  induction ns with
  | nil => rfl
  | cons n ns ih => simp [inBytesAll, ih]

theorem inBytesSegments_eq_map (segments : List (Segment Node)) :
    inBytesSegments segments = segments.map (Segment.unmarked inBytes) := by
  induction segments with
  | nil => rfl
  | cons s rest ih =>
    cases s <;> simp [inBytesSegments, Segment.unmarked, inBytesAll_eq_map, ih]

end Node

/-! ## Readers -/

/-- The reader `r'` walks the bytes of what `r` reads. -/
def Reader.Bytewise (text : List Char) (r r' : Reader) : Prop := r.cursor.Bytewise text r'.cursor

namespace Reader.Bytewise

variable {text : List Char} {r r' : Reader} (h : r.Bytewise text r') {x : Char}

include h

theorem skipBlanks : r.skipBlanks.Bytewise text r'.skipBlanks := Cursor.Bytewise.skipBlanks h

theorem sees_eq (hx : IsAscii x) : r'.sees x = r.sees x := Cursor.Bytewise.sees_eq h hx

theorem next_of_sees (hr : r.sees x = true) (hx : IsAscii x) : r.next.Bytewise text r'.next :=
  Cursor.Bytewise.next_of_sees h hr hx

theorem peek?_none (hr : r.cursor.peek? = none) : r'.cursor.peek? = none := by
  unfold Cursor.peek? at hr ⊢
  rw [h.rest, List.head?_eq_none_iff.mp hr]
  rfl

/-- The next byte is the next character, or a byte of a character outside ASCII. -/
theorem peek?_some (hr : r.cursor.peek? = some x) :
    (IsAscii x ∧ r'.cursor.peek? = some x) ∨
      ¬ IsAscii x ∧ ∃ b, r'.cursor.peek? = some b ∧ ¬ IsAscii b := by
  unfold Cursor.peek? at hr ⊢
  obtain ⟨rest, hrest⟩ := List.head?_eq_some_iff.mp hr
  rw [h.rest, hrest]
  rcases bytesOf_first x rest with ⟨hx, hbytes⟩ | ⟨hx, b, bs, hbytes, hb⟩
  · rw [hbytes]
    exact .inl ⟨hx, rfl⟩
  · rw [hbytes]
    exact .inr ⟨hx, b, rfl, hb⟩

end Reader.Bytewise

section

variable {text : List Char} {α β : Type} {f g : α → β}

/-- The same was read, seen by `f` in characters and by `g` in bytes, up to the same place. -/
abbrev SameRead (text : List Char) (f g : α → β) (x y : α × Reader) : Prop :=
  g y.1 = f x.1 ∧ x.2.Bytewise text y.2

/-- From the bytes of a text the same is read, and nothing where nothing can be read from the
text. -/
def Reading.Bytewise (text : List Char) (f g : α → β) (read : Reading α) : Prop :=
  ∀ r r' : Reader, r.Bytewise text r' → Parallel (SameRead text f g) (read r) (read r')

/-- From the bytes of a text the same is found. -/
def Probing.Bytewise (text : List Char) (f g : α → β) (read : Probing α) : Prop :=
  ∀ r r' : Reader, r.Bytewise text r' → Parallel (Option.Rel (SameRead text f g)) (read r) (read r')

theorem Probing.Bytewise.many {step : Probing α} (h : step.Bytewise text f g) :
    Reading.Bytewise text (List.map f) (List.map g) (Formula.many Reader.size step) := by
  intro r r' hr
  induction hn : r.size using Nat.strongRecOn generalizing r r' with
  | ind n ih =>
    rw [many_eq, many_eq]
    refine (h r r' hr).bind fun x y hxy => ?_
    cases hxy with
    | none => exact ⟨rfl, hr⟩
    | @some x y hxy =>
      obtain ⟨a, t⟩ := x
      obtain ⟨a', t'⟩ := y
      obtain ⟨ha, ht⟩ := hxy
      have hsize : t'.size < r'.size ↔ t.size < r.size :=
        (Cursor.alike_bytewise text).length_lt_iff hr ht
      simp only [hsize]
      split
      · rename_i hlt
        refine (ih t.size (hn ▸ hlt) t t' ht rfl).bind fun (as, u) (as', u') hu => ?_
        obtain ⟨has, hu⟩ := hu
        exact ⟨congrArg₂ List.cons ha has, hu⟩
      · exact ⟨congrArg (· :: []) ha, ht⟩

theorem Reading.Bytewise.some {read : Reading α} (h : read.Bytewise text f g) {r r' : Reader}
    (hr : r.Bytewise text r') :
    Parallel (Option.Rel (SameRead text f g)) ((read r).map Option.some)
      ((read r').map Option.some) :=
  (h r r' hr).map fun _ _ hxy => .some hxy

end

/-- Readers of a level read the same from the bytes of a text. -/
structure Level.Bytewise (text : List Char) (level : Level) : Prop where
  typeArguments {c c' : Cursor} : c.Bytewise text c' →
    SameOutcome (SameResult (Cursor.Bytewise text)) (level.typeArguments c) (level.typeArguments c')
  enter {inner : Reading (List Node)} : level.enter = .ok inner →
    inner.Bytewise text (List.map Node.inBytes) (List.map Node.unmarked)

namespace Level.Bytewise

variable {text : List Char} {level : Level}

theorem readArgument {inner : Reading (List Node)}
    (h : inner.Bytewise text (List.map Node.inBytes) (List.map Node.unmarked)) :
    Reading.Bytewise text Node.inBytes Node.unmarked (readArgument inner) := by
  intro r r' hr
  refine (h r r' hr).bind ?_
  rintro ⟨items, r₁⟩ ⟨items', r₁'⟩ ⟨hitems, hr₁⟩
  dsimp only at hitems ⊢
  rw [isEmpty_of_views hitems]
  split
  · trivial
  · refine ⟨?_, hr₁⟩
    simp only [Node.unmarked, Node.inBytes, Node.unmarkedAll_eq_map, Node.inBytesAll_eq_map, hitems]

theorem readNextArgument {inner : Reading (List Node)}
    (h : inner.Bytewise text (List.map Node.inBytes) (List.map Node.unmarked)) :
    Probing.Bytewise text Node.inBytes Node.unmarked (readNextArgument inner) := by
  intro r r' hr
  unfold Formula.readNextArgument
  rw [hr.skipBlanks.sees_eq (by decide)]
  split
  · rename_i hcomma
    exact (readArgument h).some (hr.skipBlanks.next_of_sees hcomma (by decide))
  · exact .none

variable (h : level.Bytewise text)

include h

theorem readArguments {close : Char} (hclose : IsAscii close) :
    Reading.Bytewise text (List.map Node.inBytes) (List.map Node.unmarked)
      (readArguments level close) := by
  intro r r' hr
  unfold Formula.readArguments
  dsimp only
  cases hi : level.enter with
  | error e => trivial
  | ok inner =>
    have hinner := h.enter hi
    show Parallel _ (if r.skipBlanks.sees close then _ else _)
      (if r'.skipBlanks.sees close then _ else _)
    rw [hr.skipBlanks.sees_eq hclose]
    split
    · rename_i hempty
      exact ⟨rfl, hr.skipBlanks.next_of_sees hempty hclose⟩
    · refine (readArgument hinner _ _ hr.skipBlanks).bind ?_
      rintro ⟨first, r₁⟩ ⟨first', r₁'⟩ ⟨hfirst, hr₁⟩
      refine ((readNextArgument hinner).many _ _ hr₁).bind ?_
      rintro ⟨more, r₂⟩ ⟨more', r₂'⟩ ⟨hmore, hr₂⟩
      dsimp only at hr₂ ⊢
      rw [hr₂.skipBlanks.sees_eq hclose]
      split
      · rename_i hend
        exact ⟨congrArg₂ List.cons hfirst hmore, hr₂.skipBlanks.next_of_sees hend hclose⟩
      · trivial

theorem readIndexer :
    Probing.Bytewise text (Segment.unmarked Node.inBytes) (Segment.unmarked Node.unmarked)
    (readIndexer level) := by
  intro r r' hr
  unfold Formula.readIndexer
  rw [hr.sees_eq (by decide)]
  split
  · rename_i hbracket
    refine (h.readArguments (by decide) _ _ (hr.next_of_sees hbracket (by decide))).bind ?_
    rintro ⟨args, r₁⟩ ⟨args', r₁'⟩ ⟨hargs, hr₁⟩
    dsimp only at hargs ⊢
    rw [isEmpty_of_views hargs]
    split
    · trivial
    · refine .some ⟨?_, hr₁⟩
      simp only [Segment.unmarked, hargs]
  · exact .none

theorem readNamed :
    Reading.Bytewise text (Segment.unmarked Node.inBytes) (Segment.unmarked Node.unmarked)
    (readNamed level) := by
  intro r r' hr
  have hname : r'.cursor.rest.takeWhile isNameChar = r.cursor.rest.takeWhile isNameChar := by
    rw [hr.rest, inAscii_isNameChar.takeWhile_bytesOf]
  have hafter := (Cursor.Bytewise.span hr (.inl inAscii_isNameChar)).2
  refine (Parallel.of_same (h.typeArguments hafter)).bind ?_
  rintro ⟨generics, cursor⟩ ⟨generics', cursor'⟩ ⟨hgenerics, hcursor⟩
  dsimp only at hgenerics
  subst hgenerics
  have hreader : Reader.Bytewise text ⟨cursor, r.nodes⟩ ⟨cursor', r'.nodes⟩ := hcursor
  dsimp only
  rw [hreader.sees_eq (by decide)]
  split
  · rename_i hopen
    refine (h.readArguments (by decide) _ _ (hreader.next_of_sees hopen (by decide))).bind ?_
    rintro ⟨args, r₁⟩ ⟨args', r₁'⟩ ⟨hargs, hr₁⟩
    refine ⟨?_, hr₁⟩
    dsimp only at hargs
    simp only [Segment.unmarked, hname, hargs]
  · refine ⟨?_, hcursor⟩
    simp only [Segment.unmarked, hname]

theorem readSegments : Reading.Bytewise text (List.map (Segment.unmarked Node.inBytes))
    (List.map (Segment.unmarked Node.unmarked)) (readSegments level) := by
  intro r r' hr
  refine (h.readNamed r r' hr).bind ?_
  rintro ⟨named, r₁⟩ ⟨named', r₁'⟩ ⟨hnamed, hr₁⟩
  refine (h.readIndexer.many _ _ hr₁).bind ?_
  rintro ⟨indexers, r₂⟩ ⟨indexers', r₂'⟩ ⟨hindexers, hr₂⟩
  exact ⟨congrArg₂ List.cons hnamed hindexers, hr₂⟩

theorem readNextSegments : Probing.Bytewise text (List.map (Segment.unmarked Node.inBytes))
    (List.map (Segment.unmarked Node.unmarked)) (readNextSegments level) := by
  intro r r' hr
  unfold Formula.readNextSegments
  rw [Cursor.Bytewise.seesDotName_eq hr]
  split
  · rename_i hdot
    exact h.readSegments.some (Cursor.Bytewise.next hr (Cursor.peek?_dot hdot) (by decide))
  · exact .none

theorem readRoute : Reading.Bytewise text Node.inBytes Node.unmarked (readRoute level) := by
  intro r r' hr
  refine (h.readSegments r r' hr).bind ?_
  rintro ⟨first, r₁⟩ ⟨first', r₁'⟩ ⟨hfirst, hr₁⟩
  refine (h.readNextSegments.many _ _ hr₁).bind ?_
  rintro ⟨more, r₂⟩ ⟨more', r₂'⟩ ⟨hmore, hr₂⟩
  refine ⟨?_, hr₂⟩
  dsimp only at hfirst hmore
  simp only [Node.unmarked, Node.inBytes, Node.unmarkedSegments_eq_map, Node.inBytesSegments_eq_map,
    List.map_append, List.map_flatten, hfirst, hmore]

theorem readParentheses {r r' : Reader} (hopen : r.sees '(' = true) (hr : r.Bytewise text r') :
    Parallel (SameRead text Node.inBytes Node.unmarked) (readParentheses level r)
      (readParentheses level r') := by
  unfold Formula.readParentheses
  dsimp only
  cases hi : level.enter with
  | error e => trivial
  | ok inner =>
    refine (h.enter hi _ _ (hr.next_of_sees hopen (by decide))).bind ?_
    rintro ⟨items, r₁⟩ ⟨items', r₁'⟩ ⟨hitems, hr₁⟩
    dsimp only at hitems hr₁ ⊢
    rw [isEmpty_of_views hitems, hr₁.skipBlanks.sees_eq (by decide)]
    split
    · trivial
    · rename_i hclose
      split
      · trivial
      · have hclose : r₁.skipBlanks.sees ')' = true := by simpa using hclose
        refine ⟨?_, hr₁.skipBlanks.next_of_sees hclose (by decide)⟩
        simp only [Node.unmarked, Node.inBytes, Node.unmarkedAll_eq_map,
          Node.inBytesAll_eq_map, hitems]

omit h in
private theorem readElementAt_stray {r : Reader} {x : Char} (hx : ¬ IsAscii x) :
    readElementAt level x r =
      .ok (.unresolved (r.mark r.cursor.offset) (readStray r.cursor).1,
        r.made (readStray r.cursor).2) := by
  unfold Formula.readElementAt
  simp (disch := decide) only [ne_of_not_isAscii hx, if_false, decide_false, Bool.or_false,
    Bool.false_eq_true, inAscii_isDigit.eq_false hx, inAscii_isNameStart.eq_false hx,
    operator_ofChar?_of_not_isAscii hx]

theorem readElementAt {r r' : Reader} {x : Char} (hc : r.cursor.peek? = some x) (hx : IsAscii x)
    (hr : r.Bytewise text r') :
    Parallel (SameRead text Node.inBytes Node.unmarked) (readElementAt level x r)
      (readElementAt level x r') := by
  unfold Formula.readElementAt
  dsimp only
  split
  · rename_i hopen
    subst hopen
    exact h.readParentheses (decide_eq_true hc) hr
  split
  · rename_i hquote
    subst hquote
    have hstring := readString_bytewise hc hr
    rcases hstring.cases with ⟨e, e', he, he'⟩ | ⟨⟨v, d⟩, ⟨v', d'⟩, he, he', hv, hd⟩
    · rw [he, he']
      trivial
    · rw [he, he']
      exact ⟨congrArg (Node.constant default) hv, hd⟩
  split
  · obtain ⟨hlexeme, hafter⟩ := readNumber_bytewise hc hx hr
    rw [hlexeme]
    cases (readNumber r.cursor).1 with
    | error trap => trivial
    | ok lexeme =>
      refine ⟨?_, hafter⟩
      cases lexeme <;> rfl
  split
  · exact h.readRoute r r' hr
  split
  · exact ⟨rfl, Cursor.Bytewise.next hr hc hx⟩
  · obtain ⟨hraw, hafter⟩ := readStray_bytewise hc hr
    refine ⟨?_, hafter⟩
    dsimp only
    rw [hraw]
    rfl

theorem readElement : Probing.Bytewise text Node.inBytes Node.unmarked (readElement level) := by
  intro r r' hr
  have hblanks := hr.skipBlanks
  unfold Formula.readElement
  dsimp only
  cases hpeek : r.skipBlanks.cursor.peek? with
  | none =>
    rw [hblanks.peek?_none hpeek]
    exact .none
  | some x =>
    rcases hblanks.peek?_some hpeek with ⟨hx, hpeek'⟩ | ⟨hx, b, hpeek', hb⟩
    · rw [hpeek']
      dsimp only
      split
      · exact .none
      · exact (h.readElementAt hpeek hx hblanks).map fun _ _ hxy => .some hxy
    · rw [hpeek']
      simp only [inAscii_endsElements.eq_false hx, inAscii_endsElements.eq_false hb]
      rw [readElementAt_stray hx, readElementAt_stray hb]
      obtain ⟨hraw, hafter⟩ := readStray_bytewise hpeek hblanks
      exact .some ⟨congrArg (Node.unresolved default) hraw, hafter⟩

end Level.Bytewise

end Formula
