import Formula.Proofs.Tokens

/-!
# String literals

A text can be written between quotes in many ways: quotes and backslashes are escaped, five more
characters are escaped or stand for themselves, and all others stand for themselves (`Encodes`).
Whatever way is taken, the text is read back and the closing quote is the last character that is
read; and nothing else is read as a string (`readStringBody_eq_ok_iff`). A literal that breaks off
is reported at its opening quote, also where it breaks off behind a backslash
(`readStringBody_breaksOff`).

`string_literals_read_back` says all of this of elements and of whole sources.
-/

namespace Formula

/-! ## Ways to write a text -/

/-- The characters that can be escaped, each with the one that stands for it behind a backslash. -/
def escapes : List (Char × Char) :=
  [('"', '"'), ('\\', '\\'), ('\'', '\''), ('\n', 'n'), ('\t', 't'), ('\r', 'r'), ('\x00', '0')]

/-- Between quotes, `body` is a way to write the text. -/
inductive Encodes : (text body : List Char) → Prop
  | nil : Encodes [] []
  | raw {x : Char} {text body : List Char} (hquote : x ≠ '"') (hslash : x ≠ '\\')
      (h : Encodes text body) :
    Encodes (x :: text) (x :: body)
  | escaped {x e : Char} {text body : List Char} (hx : (x, e) ∈ escapes) (h : Encodes text body) :
    Encodes (x :: text) ('\\' :: e :: body)

/-- What stands behind a backslash, as the character it stands for. -/
def undoEscape (e : Char) : Char := ((escapes.find? (·.2 = e)).map (·.1)).getD e

/-- A text with all escapes undone. -/
def undoEscapes : List Char → List Char
  | [] => []
  | c :: rest =>
    if c = '\\' then
      match rest with
      | [] => []
      | e :: rest => undoEscape e :: undoEscapes rest
    else c :: undoEscapes rest

private theorem undoEscape_of_mem {x e : Char} (h : (x, e) ∈ escapes) : undoEscape e = x := by
  have hall : escapes.all (fun p => undoEscape p.2 = p.1) = true := rfl
  exact of_decide_eq_true (List.all_eq_true.mp hall _ h)

/-- What a text is written as gives the text when the escapes are undone. -/
theorem Encodes.undoEscapes_eq {text body : List Char} (h : Encodes text body) :
    undoEscapes body = text := by
  induction h with
  | nil => rfl
  | raw hquote hslash h ih =>
    rw [undoEscapes.eq_def]
    simp only [if_neg hslash, ih]
  | escaped hx h ih => rw [undoEscapes, if_pos rfl, undoEscape_of_mem hx, ih]

/-- Every text can be written. -/
theorem exists_encodes (text : List Char) : ∃ body, Encodes text body := by
  induction text with
  | nil => exact ⟨[], .nil⟩
  | cons x text ih =>
    obtain ⟨body, h⟩ := ih
    by_cases hquote : x = '"'
    · exact ⟨_, .escaped (e := '"') (by rw [hquote]; decide) h⟩
    by_cases hslash : x = '\\'
    · exact ⟨_, .escaped (e := '\\') (by rw [hslash]; decide) h⟩
    exact ⟨_, .raw hquote hslash h⟩

/-! ## Reading -/

theorem unescape?_eq_some_iff {e x : Char} : unescape? e = some x ↔ (x, e) ∈ escapes := by
  constructor
  · intro h
    unfold unescape? at h
    repeat' split at h
    all_goals cases h
    all_goals simp_all [escapes]
  · intro h
    have hall : escapes.all (fun p => unescape? p.2 = some p.1) = true := rfl
    exact of_decide_eq_true (List.all_eq_true.mp hall _ h)

theorem byteLength_cons (c : Char) (cs : List Char) :
    byteLength (c :: cs) = c.utf8Size + byteLength cs := rfl

section

variable {text body : List Char} (opening : Nat)

theorem Encodes.readStringBody (h : Encodes text body) (offset : Nat) (more : List Char) :
    readStringBody opening offset (body ++ '"' :: more) =
      .ok (text, ⟨more, offset + byteLength body + 1⟩) := by
  induction h generalizing offset with
  | nil =>
    rw [List.nil_append, readStringBody.eq_def]
    exact if_pos rfl
  | @raw x text body hquote hslash h ih =>
    rw [List.cons_append, readStringBody.eq_def]
    simp only [if_neg hquote, if_neg hslash, ih, byteLength_cons, Nat.add_assoc]
  | @escaped x e text body hx h ih =>
    have hunescape := unescape?_eq_some_iff.mpr hx
    have hsize : byteLength ('\\' :: e :: body) = 2 + byteLength body := by
      rw [byteLength_cons, byteLength_cons, utf8Size_of_unescape? hunescape]
      show 1 + (1 + byteLength body) = _
      omega
    rw [List.cons_append, List.cons_append, Formula.readStringBody, if_neg (by decide), if_pos rfl]
    simp only [hunescape, ih, hsize, Nat.add_assoc]

/-- What is read up to a closing quote is a way to write the text. -/
theorem encodes_of_readStringBody {offset : Nat} {cs : List Char} {after : Cursor}
    (h : Formula.readStringBody opening offset cs = .ok (text, after)) :
    ∃ body, Encodes text body ∧ cs = body ++ '"' :: after.rest := by
  fun_induction Formula.readStringBody opening offset cs generalizing text after with
  | case1 => cases h
  | case2 offset rest =>
    cases h
    exact ⟨[], .nil, rfl⟩
  | case3 => cases h
  | case4 => cases h
  | case5 => cases h
  | case6 offset e rest x hx xs after hbody hquote ih =>
    cases h
    obtain ⟨body, hencodes, rfl⟩ := ih hbody
    exact ⟨'\\' :: e :: body, .escaped (unescape?_eq_some_iff.mp hx) hencodes, rfl⟩
  | case7 => cases h
  | case8 offset c rest hquote hslash xs after hbody ih =>
    cases h
    obtain ⟨body, hencodes, rfl⟩ := ih hbody
    exact ⟨c :: body, .raw hquote hslash hencodes, rfl⟩

/-- Exactly the ways to write a text are read to it, each with the quote behind it. -/
theorem readStringBody_eq_ok_iff {offset : Nat} {cs : List Char} {after : Cursor} :
    Formula.readStringBody opening offset cs = .ok (text, after) ↔
      ∃ body, Encodes text body ∧ cs = body ++ '"' :: after.rest ∧
        after.offset = offset + byteLength body + 1 := by
  constructor
  · intro h
    obtain ⟨body, hencodes, hcs⟩ := encodes_of_readStringBody opening h
    rw [hcs, hencodes.readStringBody] at h
    obtain ⟨-, hafter⟩ := Prod.mk.inj (Except.ok.inj h)
    exact ⟨body, hencodes, hcs, congrArg Cursor.offset hafter.symm⟩
  · rintro ⟨body, hencodes, rfl, hoffset⟩
    rw [hencodes.readStringBody, ← hoffset]

/-- A literal that breaks off before its closing quote is reported where it was opened. -/
theorem readStringBody_breaksOff (h : Encodes text body) {cs : List Char}
    (hcs : cs <+: body) (offset : Nat) :
    Formula.readStringBody opening offset cs = .error (.parse opening .unterminatedString) := by
  induction h generalizing cs offset with
  | nil =>
    rw [List.prefix_nil.mp hcs]
    rfl
  | raw hquote hslash h ih =>
    rcases List.prefix_cons_iff.mp hcs with rfl | ⟨tail, rfl, htail⟩
    · rfl
    · rw [readStringBody.eq_def]
      simp only [if_neg hquote, if_neg hslash, ih htail]
  | escaped hx h ih =>
    rcases List.prefix_cons_iff.mp hcs with rfl | ⟨tail, rfl, htail⟩
    · rfl
    rcases List.prefix_cons_iff.mp htail with rfl | ⟨rest, rfl, hrest⟩
    · -- a backslash at the end escapes nothing
      rfl
    · rw [Formula.readStringBody, if_neg (by decide), if_pos rfl]
      simp only [unescape?_eq_some_iff.mpr hx, ih hrest]

end

/-! ## Elements and sources -/

theorem readString_quote (cs : List Char) (offset : Nat) :
    readString ⟨'"' :: cs, offset⟩ = (readStringBody offset (offset + 1) cs).map fun found =>
      (.str (String.ofList found.1), found.2) := by
  unfold readString
  show _ = (readStringBody offset (offset + 1) (Cursor.next ⟨'"' :: cs, offset⟩).rest).map _
  cases readStringBody offset (offset + 1) (Cursor.next ⟨'"' :: cs, offset⟩).rest <;> rfl

theorem readElement_quote (level : Level) (cs : List Char) (offset k : Nat) :
    readElement level ⟨⟨'"' :: cs, offset⟩, k⟩ =
      (readStringBody offset (offset + 1) cs).map fun found =>
        some (.constant ⟨k, offset⟩ (.str (String.ofList found.1)), ⟨found.2, k + 1⟩) := by
  rw [readElement_start level (by decide), readElementAt, if_neg (by decide), if_pos rfl,
    readString_quote]
  cases readStringBody offset (offset + 1) cs <;> rfl

/-- The error of the first element is that of the source. -/
theorem Node.ofSource_error {limit : Nat} {source : String} {e : BuildError}
    (h : readElement (levelAt limit limit) ⟨.start source, 0⟩ = .error e) :
    Node.ofSource limit source = .error e := by
  unfold Node.ofSource
  rw [readElements_eq, many_eq, h]
  rfl

/-- A text between quotes. -/
def inQuotes (body : List Char) : List Char := '"' :: (body ++ ['"'])

theorem byteLength_inQuotes (body : List Char) :
    byteLength (inQuotes body) = 1 + byteLength body + 1 := by
  rw [inQuotes, byteLength_cons, byteLength_append]
  show 1 + (byteLength body + 1) = _
  omega

theorem inQuotes_append (body more : List Char) :
    inQuotes body ++ more = '"' :: (body ++ '"' :: more) := by
  simp [inQuotes]

/-- A proper part from the start of a literal is the opening quote and a part of its body. -/
theorem prefix_body {cs body : List Char} (h : cs <+: inQuotes body) (hnil : cs ≠ [])
    (hall : cs ≠ inQuotes body) :
    ∃ tail, cs = '"' :: tail ∧ tail <+: body := by
  rcases List.prefix_cons_iff.mp h with rfl | ⟨tail, rfl, htail⟩
  · exact (hnil rfl).elim
  rcases List.prefix_concat_iff.mp htail with rfl | htail
  · exact (hall rfl).elim
  · exact ⟨tail, rfl, htail⟩

/-- **String literals are read back.** Every text can be written between quotes, with quotes and
backslashes escaped. Each way to write it is read as the constant, and the rest begins right behind
the closing quote, whatever it is. A source that is a part from the start of such a literal is
reported as not terminated, at its opening quote. And every literal that is read stands for the text
that its escapes undone make. -/
theorem string_literals_read_back (t : String) :
    (∃ body, Encodes t.toList body) ∧
    (∀ body, Encodes t.toList body →
      (∀ level offset k more, readElement level ⟨⟨inQuotes body ++ more, offset⟩, k⟩ =
        .ok
          (some (.constant ⟨k, offset⟩ (.str t),
            ⟨⟨more, offset + byteLength (inQuotes body)⟩, k + 1⟩))) ∧
      ∀ source : String, source.toList <+: inQuotes body → source ≠ "" →
        source.toList ≠ inQuotes body → ∀ limit, ∃ e, Node.ofSource limit source = .error e ∧
          e = .parse 0 .unterminatedString ∧
          e.message = "parse error at offset 0: unterminated string literal") ∧
    ∀ c v after, c.peek? = some '"' → readString c = .ok (v, after) →
      ∃ body, c.rest = inQuotes body ++ after.rest ∧
        after.offset = c.offset + byteLength (inQuotes body) ∧
        Encodes (undoEscapes body) body ∧ v = .str (String.ofList (undoEscapes body)) := by
  refine ⟨exists_encodes _,
    fun body h => ⟨fun level offset k more => ?_, fun source hsource hnil hall limit => ?_⟩,
    fun c v after hquote hread => ?_⟩
  · rw [inQuotes_append, readElement_quote, h.readStringBody, byteLength_inQuotes]
    simp only [Except.map, String.ofList_toList, Nat.add_assoc]
  · have hne : source.toList ≠ [] := fun hempty => hnil (String.toList_eq_nil_iff.mp hempty)
    obtain ⟨tail, htail, hbody⟩ := prefix_body hsource hne hall
    refine ⟨_, Node.ofSource_error ?_, rfl, rfl⟩
    rw [Cursor.start, htail, readElement_quote, readStringBody_breaksOff _ h hbody]
    rfl
  · obtain ⟨rest, offset⟩ := c
    cases rest with
    | nil => cases hquote
    | cons x cs =>
      cases hquote
      rw [readString_quote] at hread
      obtain ⟨⟨text, after'⟩, hbody, hfound⟩ := Except.map_ok hread
      cases hfound
      obtain ⟨body, hencodes, hcs, hoffset⟩ := (readStringBody_eq_ok_iff _).mp hbody
      refine ⟨body, ?_, ?_, ?_, ?_⟩
      · rw [inQuotes_append, hcs]
      · rw [hoffset, byteLength_inQuotes, Nat.add_assoc offset, Nat.add_assoc offset]
      · rwa [hencodes.undoEscapes_eq]
      · rw [hencodes.undoEscapes_eq]

/-- A text with an accent, a quote, a line break, an apostrophe and a backslash at its end, where
the line break is escaped and the apostrophe is not; and the part of it that ends behind the last
backslash but one. -/
theorem string_literals_read_back_accent :
    let t : String := "\u00e9\"\n'\\"
    let body : List Char := ['\u00e9', '\\', '"', '\\', 'n', '\'', '\\', '\\']
    Encodes t.toList body ∧
      readElement (levelAt 1 1) ⟨⟨inQuotes body ++ ['"', '+'], 3⟩, 0⟩ =
        .ok (some (.constant ⟨0, 3⟩ (.str t), ⟨⟨['"', '+'], 14⟩, 1⟩)) ∧
      Node.ofSource 1 "\"\u00e9\\\"\\n'\\" = .error (.parse 0 .unterminatedString) := by
  intro t body
  have htext : t.toList = ['\u00e9', '"', '\n', '\'', '\\'] := by decide
  have h : Encodes t.toList body := by
    rw [htext]
    exact .raw (by decide) (by decide) (.escaped (by decide) (.escaped (by decide) (.raw (by decide)
      (by decide) (.escaped (by decide) .nil))))
  obtain ⟨hread, hbroken⟩ := (string_literals_read_back t).2.1 body h
  obtain ⟨e, he, rfl, -⟩ := hbroken "\"\u00e9\\\"\\n'\\" (by decide) (by decide) (by decide) 1
  exact ⟨h, hread _ _ _ _, he⟩

end Formula
