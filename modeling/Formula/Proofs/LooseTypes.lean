import Formula.Proofs.Loosening

/-!
# Type arguments in a looser text

A list of type arguments is read to its end before it is one, so what is read behind a name can
depend on a text far behind it. But blanks in a list part nothing: what is read as a list in a
looser text is read as the same list in the tighter one (`readTypeList_tightens`), and if it is too
deep, it is so in both (`readTypeList_tooDeep`). So where no list was, putting in blanks makes none
(`typeArguments?_none`).
-/

namespace Formula

/-! ## Type names -/

/-- The text of a dotted name. -/
def pathText (first : String) (names : List String) : List Char :=
  first.toList ++ names.flatMap fun name => '.' :: name.toList

section

variable {first : String} {names : List String}

theorem pathText_solid (h : ∀ name ∈ first :: names, IsName name.toList) :
    ∀ x ∈ pathText first names, isBlank x = false := by
  obtain ⟨hfirst, hnames⟩ := List.forall_mem_cons.mp h
  refine List.forall_mem_append.mpr ⟨hfirst.solid, fun x hx => ?_⟩
  obtain ⟨name, hname, hx⟩ := List.mem_flatMap.mp hx
  rcases List.mem_cons.mp hx with rfl | hx
  · rfl
  · exact (hnames name hname).solid x hx

theorem stopsAt_pathText (h : ∀ name ∈ first :: names, IsName name.toList) (more : List Char) :
    StopsAt isBlank (pathText first names ++ more) := by
  have hsolid := (h first List.mem_cons_self).solid
  obtain ⟨x, rest, hfirst, -⟩ := (h first List.mem_cons_self).start
  rw [hfirst] at hsolid
  rw [pathText, hfirst, List.cons_append, List.cons_append]
  exact stopsAt_cons (hsolid x List.mem_cons_self)

/-- Reads the arguments of a type name, if a bracket announces them. -/
def readArgs (list : Cursor → Except ListFault (List TypeName × Cursor)) (c : Cursor) :
    Except ListFault (List TypeName × Cursor) :=
  if c.sees '<' then list c else .ok ([], c)

/-- A type name with the path and with what is read as its arguments. -/
def finishName (path : List String) (args : Except ListFault (List TypeName × Cursor)) :
    Except ListFault (TypeName × Cursor) :=
  args >>= fun x => (TypeName.ofPath? path x.1).elim (.error .malformed) fun t => .ok (t, x.2)

private theorem finishName_ok {path : List String} {args : List TypeName} {t : TypeName}
    (h : TypeName.ofPath? path args = some t) (c : Cursor) :
    finishName path (.ok (args, c)) = .ok (t, c) := by
  simp only [finishName, bind, Except.bind, h, Option.elim_some]

theorem readTypeName_finish {list : Cursor → Except ListFault (List TypeName × Cursor)}
    {c c₁ c₂ : Cursor} (hname : c.name? = some (first, c₁))
    (hnames : many (·.rest.length) (dotName (ε := ListFault)) c₁ = .ok (names, c₂)) :
    readTypeName list c = finishName (first :: names) (readArgs list c₂) := by
  simp only [readTypeName, hname, hnames, bind, Except.bind, finishName, readArgs]
  split
  · cases list c₂ with
    | error e => rfl
    | ok x => cases TypeName.ofPath? (first :: names) x.1 <;> rfl
  · show _ = (TypeName.ofPath? (first :: names) []).elim _ _
    cases TypeName.ofPath? (first :: names) [] <;> rfl

/-- A type name is a dotted name and its arguments, or there is none. -/
theorem readTypeName_cases (list : Cursor → Except ListFault (List TypeName × Cursor))
    (c : Cursor) :
    readTypeName list c = .error .malformed ∨
      ∃ first names c₂, (∀ name ∈ first :: names, IsName name.toList) ∧
        c.rest = pathText first names ++ c₂.rest ∧
        readTypeName list c = finishName (first :: names) (readArgs list c₂) := by
  cases hname : c.name? with
  | none =>
    refine .inl ?_
    simp only [readTypeName, hname]
  | some found =>
    obtain ⟨first, c₁⟩ := found
    obtain ⟨names, c₂, hmany, hnames, hrest⟩ := many_dotName c₁
    refine .inr ⟨first, names, c₂, List.forall_mem_cons.mpr ⟨isName_of_name? hname, hnames⟩, ?_,
      readTypeName_finish hname (hmany ListFault)⟩
    rw [Cursor.rest_of_name? hname, hrest, pathText, List.append_assoc]

/-- A dotted name that ends is read with what is read behind it. -/
theorem readTypeName_path (h : ∀ name ∈ first :: names, IsName name.toList) {tail : List Char}
    (hend : StopsAt isNameChar tail) (hdot : StopsAt (· = '.') tail) {c : Cursor}
    (hc : c.rest = pathText first names ++ tail)
    (list : Cursor → Except ListFault (List TypeName × Cursor)) :
    ∃ c₂, c₂.rest = tail ∧
      readTypeName list c = finishName (first :: names) (readArgs list c₂) := by
  obtain ⟨hfirst, hnames⟩ := List.forall_mem_cons.mp h
  have hstop : StopsAt isNameChar (names.flatMap (fun name => '.' :: name.toList) ++ tail) := by
    cases names with
    | nil => exact hend
    | cons name names => exact stopsAt_cons rfl
  rw [pathText, List.append_assoc] at hc
  obtain ⟨c₁, hname, hc₁⟩ := hfirst.name? hstop hc
  rw [String.ofList_toList] at hname
  obtain ⟨_, c₂, hmany, hc₂, rfl⟩ :=
    TypeName.gets_dotNames (ε := ListFault) hnames hend (by simpa [StopsAt] using hdot) c₁ hc₁
  exact ⟨c₂, hc₂, readTypeName_finish hname hmany⟩

end

/-! ## Lists of type names -/

/-- A comma or a closing bracket follows, perhaps behind blanks. -/
def Ended (more : List Char) : Prop := ∃ x ∈ (more.dropWhile isBlank).head?, x = ',' ∨ x = '>'

theorem Ended.stopsAt {p : Char → Bool} {more : List Char} (h : Ended more)
    (hblank : ∀ x, isBlank x = true → p x = false) (hcomma : p ',' = false)
    (hclose : p '>' = false) :
    StopsAt p more := by
  intro x hx
  cases more with
  | nil => cases hx
  | cons y more =>
    cases hx
    cases hy : isBlank x with
    | true => exact hblank x hy
    | false =>
      obtain ⟨z, hz, hcases⟩ := h
      rw [List.dropWhile_cons_of_neg (Bool.eq_false_iff.mp hy)] at hz
      cases hz
      rcases hcases with rfl | rfl
      · exact hcomma
      · exact hclose

theorem Loose.blank_of_blank {cs cs' : List Char} (h : Loose cs cs')
    (hblank : Blank cs') : Blank cs := by
  induction h with
  | nil => exact hblank
  | keep x h ih =>
    obtain ⟨hx, hblank⟩ := List.forall_mem_cons.mp hblank
    exact List.forall_mem_cons.mpr ⟨hx, ih hblank⟩
  | blank hx h ih => exact ih (List.forall_mem_cons.mp hblank).2

section

variable {α : Type} (read : Cursor → Except ListFault (α × Cursor))
  (F : List Char → Prop) (c' : Cursor)

/-- From any text that is tighter than the one from `c'` to `d'`, `a` is read in front of all that
has `F`. -/
def ReadsTighter (a : α) (d' : Cursor) : Prop :=
  ∃ used, c'.rest = used ++ d'.rest ∧
    ∀ cs more (c : Cursor), Loose cs used → F more → c.rest = cs ++ more →
    ∃ d, read c = .ok (a, d) ∧ d.rest = more

/-- What is read at `c'` is also read from any tighter text. -/
def Tightens : Prop := ∀ a d', read c' = .ok (a, d') → ReadsTighter read F c' a d'

end

section

variable {room : Nat} {c' : Cursor}

/-- Arguments are nothing, or start with a bracket. -/
theorem readArgs_start {args : List TypeName} {d' : Cursor} {used cs : List Char}
    (h : readArgs (readTypeList room) c' = .ok (args, d')) (hused : c'.rest = used ++ d'.rest)
    (hcs : Loose cs used) :
    (cs = [] ∧ c'.sees '<' = false) ∨ (∃ rest, cs = '<' :: rest) ∧ c'.sees '<' = true := by
  rw [readArgs] at h
  cases hsees : c'.sees '<' with
  | true =>
    rw [hsees, if_pos rfl] at h
    obtain ⟨between, hrest, -⟩ := readTypeList_bracketed hsees h
    rw [List.append_cons, ← List.cons_append, hused] at hrest
    rw [List.append_cancel_right hrest] at hcs
    obtain ⟨rest, hrest, -⟩ := hcs.uncons rfl
    exact .inr ⟨⟨rest, hrest⟩, rfl⟩
  | false =>
    rw [hsees, if_neg Bool.false_ne_true] at h
    cases h
    rw [← List.append_cancel_right (show [] ++ c'.rest = used ++ c'.rest from hused)] at hcs
    exact .inl ⟨hcs.eq_nil, rfl⟩

theorem readArgs_tightens
    (hlist : c'.sees '<' = true → Tightens (readTypeList room) (fun _ => True) c') :
    Tightens (readArgs (readTypeList room)) Ended c' := by
  intro args d' h
  have hargs := h
  rw [readArgs] at h
  split at h
  · rename_i hsees
    obtain ⟨used, hused, htight⟩ := hlist hsees args d' h
    refine ⟨used, hused, fun cs more c hcs hmore hc => ?_⟩
    obtain ⟨d, hd, hrest⟩ := htight cs more c hcs trivial hc
    obtain ⟨-, hnot⟩ | ⟨⟨rest, rfl⟩, -⟩ := readArgs_start hargs hused hcs
    · cases hnot.symm.trans hsees
    · exact ⟨d, by rw [readArgs, Cursor.sees_cons hc]; exact hd, hrest⟩
  · cases h
    refine ⟨[], rfl, fun cs more c hcs hmore hc => ⟨c, ?_, ?_⟩⟩
    · rw [hcs.eq_nil, List.nil_append] at hc
      have hsees : c.sees '<' = false :=
        Cursor.sees_eq_false_iff.mpr (hc ▸ hmore.stopsAt (ne_of_isBlank rfl) rfl rfl)
      rw [readArgs, hsees, if_neg Bool.false_ne_true]
    · rw [hc, hcs.eq_nil, List.nil_append]

theorem stopsAt_tail {args : List TypeName} {d' : Cursor} {used cs more : List Char}
    {p : Char → Bool} (h : readArgs (readTypeList room) c' = .ok (args, d'))
    (hused : c'.rest = used ++ d'.rest) (hcs : Loose cs used) (hmore : Ended more)
    (hblank : ∀ x, isBlank x = true → p x = false) (hopen : p '<' = false) (hcomma : p ',' = false)
    (hclose : p '>' = false) : StopsAt p (cs ++ more) := by
  obtain ⟨rfl, -⟩ | ⟨⟨rest, rfl⟩, -⟩ := readArgs_start h hused hcs
  · exact hmore.stopsAt hblank hcomma hclose
  · exact stopsAt_cons hopen

theorem readEntry_tightens
    (hlist : ∀ c', c'.sees '<' = true → Tightens (readTypeList room) (fun _ => True) c') :
    Tightens (TypeName.readEntry room) Ended c' := by
  intro t d' h
  rw [TypeName.readEntry] at h
  rcases readTypeName_cases (readTypeList room) c'.skipBlanks
    with hnone | ⟨first, names, c₂, hpath, hrest, hread⟩
  · cases hnone.symm.trans h
  rw [hread] at h
  obtain ⟨⟨args, e'⟩, hargs, h⟩ := Except.bind_ok h
  obtain ⟨used, hused, htight⟩ := readArgs_tightens (hlist c₂) args e' hargs
  have hskip : c'.rest = c'.rest.takeWhile isBlank ++ c'.skipBlanks.rest :=
    List.takeWhile_append_dropWhile.symm
  cases ht : TypeName.ofPath? (first :: names) args with
  | none =>
    rw [ht] at h
    cases h
  | some t' =>
    rw [ht] at h
    cases h
    refine ⟨c'.rest.takeWhile isBlank ++ (pathText first names ++ used), ?_,
      fun cs more c hcs hmore hc => ?_⟩
    · rw [List.append_assoc, List.append_assoc, ← hused, ← hrest]
      exact hskip
    · obtain ⟨blanks, tight, rfl, hblanks, htext⟩ := hcs.split
      obtain ⟨tail, rfl, htail⟩ := htext.uncons_append (pathText_solid hpath)
      rw [List.append_assoc, List.append_assoc] at hc
      have hstart :=
        Cursor.rest_skipBlanks_append (hblanks.blank_of_blank all_takeWhile)
          (stopsAt_pathText hpath _) hc
      obtain ⟨c₃, hc₃, hread⟩ := readTypeName_path hpath
        (stopsAt_tail hargs hused htail hmore (fun _ => isNameChar_of_isBlank) rfl rfl rfl)
        (stopsAt_tail hargs hused htail hmore (ne_of_isBlank rfl) rfl rfl rfl) hstart
          (readTypeList room)
      obtain ⟨d, hd, hmore⟩ := htight tail more c₃ htail hmore hc₃
      refine ⟨d, ?_, hmore⟩
      rw [TypeName.readEntry, hread, hd]
      exact finishName_ok ht d

/-- An entry is read from a tighter text up to the comma or the bracket behind it. -/
theorem readEntry_separated
    (hlist : ∀ c', c'.sees '<' = true → Tightens (readTypeList room) (fun _ => True) c')
    {t : TypeName} {e' : Cursor} {x : Char} (hx : x = ',' ∨ x = '>')
    (hentry : TypeName.readEntry room c' = .ok (t, e')) (hsees : e'.skipBlanks.sees x = true) :
    ∃ used, c'.rest = used ++ e'.skipBlanks.next.rest ∧ ∀ cs more (c : Cursor), Loose cs used →
      c.rest = cs ++ more →
      ∃ e, TypeName.readEntry room c = .ok (t, e) ∧ e.skipBlanks.rest = x :: more := by
  obtain ⟨used, hused, htight⟩ := readEntry_tightens hlist t e' hentry
  have hsolid : isBlank x = false := by
    rcases hx with rfl | rfl <;> rfl
  have hrest : e'.rest = e'.rest.takeWhile isBlank ++ x :: e'.skipBlanks.next.rest := by
    rw [← Cursor.rest_of_sees hsees]
    exact List.takeWhile_append_dropWhile.symm
  refine ⟨used ++ (e'.rest.takeWhile isBlank ++ [x]), ?_, fun cs more c hcs hc => ?_⟩
  · rw [hused, List.append_assoc, List.append_assoc, List.singleton_append, ← hrest]
  · obtain ⟨entry, _, rfl, hentry, hcs⟩ := hcs.split
    obtain ⟨blanks, _, rfl, hblanks, hcs⟩ := hcs.split
    obtain ⟨_, rfl, hnil⟩ := hcs.uncons hsolid
    cases hnil
    rw [List.append_assoc, List.append_assoc, List.singleton_append] at hc
    have hblanks := hblanks.blank_of_blank all_takeWhile
    have hended : Ended (blanks ++ x :: more) := by
      refine ⟨x, ?_, hx⟩
      rw [StopsAt.dropWhile (stopsAt_cons hsolid) hblanks]
      rfl
    obtain ⟨e, he, hmore⟩ := htight entry _ c hentry hended hc
    exact ⟨e, he, Cursor.rest_skipBlanks_append hblanks (stopsAt_cons hsolid) hmore⟩

theorem readEntries_tightens
    (hlist : ∀ c', c'.sees '<' = true → Tightens (readTypeList room) (fun _ => True) c') :
    Tightens (TypeName.readEntries room) (fun _ => True) c' := by
  intro ts d' h
  refine TypeName.readEntries_induction
    (motive := ReadsTighter (TypeName.readEntries room) fun _ => True) ?_ ?_ h
  · rintro c' t e' ts d' hentry hcomma ⟨used', hused', htight'⟩
    obtain ⟨used, hused, htight⟩ := readEntry_separated hlist (.inl rfl) hentry hcomma
    refine ⟨used ++ used', by rw [hused, hused', List.append_assoc], fun cs more c hcs _ hc => ?_⟩
    obtain ⟨entry, others, rfl, hentry, hothers⟩ := hcs.split
    rw [List.append_assoc] at hc
    obtain ⟨e, he, hrest⟩ := htight entry _ c hentry hc
    obtain ⟨d, hd, hend⟩ :=
      htight' others more e.skipBlanks.next hothers trivial (Cursor.rest_next hrest)
    refine ⟨d, ?_, hend⟩
    rw [TypeName.readEntries_eq, he]
    show (if e.skipBlanks.sees ',' then _ else _) = _
    rw [Cursor.sees_cons hrest, if_pos (decide_eq_true rfl)]
    show TypeName.readEntries room e.skipBlanks.next >>= _ = _
    rw [hd]
    rfl
  · intro c' t e' hentry hclose
    obtain ⟨used, hused, htight⟩ := readEntry_separated hlist (.inr rfl) hentry hclose
    refine ⟨used, hused, fun cs more c hcs _ hc => ?_⟩
    obtain ⟨e, he, hrest⟩ := htight cs more c hcs hc
    refine ⟨e.skipBlanks.next, ?_, Cursor.rest_next hrest⟩
    rw [TypeName.readEntries_eq, he]
    show (if e.skipBlanks.sees ',' then _ else if e.skipBlanks.sees '>' then _ else _) = _
    rw [Cursor.sees_cons hrest, Cursor.sees_cons hrest]
    rfl

/-- A list of type arguments is read from any tighter text, whatever follows. -/
theorem readTypeList_tightens (hsees : c'.sees '<' = true) :
    Tightens (readTypeList room) (fun _ => True) c' := by
  induction room generalizing c' with
  | zero =>
    intro ts d' h
    cases h
  | succ room ih =>
    intro ts d' h
    rw [readTypeList_eq] at h
    obtain ⟨used, hused, htight⟩ := readEntries_tightens (fun c' hsees => ih hsees) ts d' h
    refine ⟨'<' :: used, by rw [Cursor.rest_of_sees hsees, hused]; rfl,
      fun cs more c hcs _ hc => ?_⟩
    obtain ⟨tight, rfl, htext⟩ := hcs.uncons rfl
    rw [readTypeList_eq]
    exact htight tight more c.next htext trivial (Cursor.rest_next hc)

private theorem finishName_tooDeep {path : List String}
    {args : Except ListFault (List TypeName × Cursor)}
    (h : finishName path args = .error .tooDeep) : args = .error .tooDeep := by
  rcases Except.bind_error h with h | ⟨x, -, h⟩
  · exact h
  · cases hx : TypeName.ofPath? path x.1 <;> rw [hx] at h <;> cases h

theorem readArgs_tooDeep (h : readArgs (readTypeList room) c' = .error .tooDeep) :
    c'.sees '<' = true ∧ readTypeList room c' = .error .tooDeep := by
  rw [readArgs] at h
  split at h
  · rename_i hsees
    exact ⟨hsees, h⟩
  · cases h

/-- An entry that is too deep in a looser text is so in the tighter one. -/
theorem readEntry_tooDeep {c : Cursor}
    (hlist : ∀ c c' : Cursor, c'.sees '<' = true → Loose c.rest c'.rest →
      readTypeList room c' = .error .tooDeep → readTypeList room c = .error .tooDeep)
    (hloose : Loose c.rest c'.rest) (h : TypeName.readEntry room c' = .error .tooDeep) :
    TypeName.readEntry room c = .error .tooDeep := by
  rw [TypeName.readEntry] at h
  rcases readTypeName_cases (readTypeList room) c'.skipBlanks
    with hnone | ⟨first, names, c₂, hpath, hrest, hread⟩
  · cases hnone.symm.trans h
  rw [hread] at h
  obtain ⟨hsees, hdeep⟩ := readArgs_tooDeep (finishName_tooDeep h)
  have hskip : Loose c.skipBlanks.rest c'.skipBlanks.rest := hloose.skip.1
  rw [hrest] at hskip
  obtain ⟨tail, htail, hargs⟩ := hskip.uncons_append (pathText_solid hpath)
  obtain ⟨more, rfl, -⟩ := Loose.uncons rfl (Cursor.rest_of_sees hsees ▸ hargs)
  obtain ⟨c₃, hc₃, hread⟩ :=
    readTypeName_path hpath (stopsAt_cons rfl) (stopsAt_cons rfl) htail (readTypeList room)
  rw [TypeName.readEntry, hread, readArgs, Cursor.sees_cons hc₃, if_pos (decide_eq_true rfl),
    hlist c₃ c₂ hsees (hc₃ ▸ hargs) hdeep]
  rfl

theorem readEntries_tooDeep {c : Cursor}
    (hlist : ∀ c c' : Cursor, c'.sees '<' = true → Loose c.rest c'.rest →
      readTypeList room c' = .error .tooDeep → readTypeList room c = .error .tooDeep)
    (hloose : Loose c.rest c'.rest) (h : TypeName.readEntries room c' = .error .tooDeep) :
    TypeName.readEntries room c = .error .tooDeep := by
  induction hn : c'.rest.length using Nat.strongRecOn generalizing c c' with
  | ind n ih =>
    rw [TypeName.readEntries_eq] at h ⊢
    rcases Except.bind_error h with hentry | ⟨⟨t, e'⟩, hentry, h⟩
    · rw [readEntry_tooDeep hlist hloose hentry]
      rfl
    · simp only at h
      cases hcomma : e'.skipBlanks.sees ',' with
      | true =>
        rw [hcomma, if_pos rfl] at h
        obtain ⟨used, hused, htight⟩ :=
          readEntry_separated (fun _ => readTypeList_tightens) (.inl rfl) hentry hcomma
        obtain ⟨cs, more, hc, hcs, hmore⟩ := Loose.split (hused ▸ hloose)
        obtain ⟨e, he, hrest⟩ := htight cs more c hcs hc
        have hdeep : TypeName.readEntries room e'.skipBlanks.next = .error .tooDeep := by
          rcases Except.bind_error h with h | ⟨_, -, h⟩
          · exact h
          · cases h
        rw [he]
        show (if e.skipBlanks.sees ',' then _ else _) = _
        rw [Cursor.sees_cons hrest, if_pos (decide_eq_true rfl)]
        show TypeName.readEntries room e.skipBlanks.next >>= _ = _
        rw [ih _ (hn ▸ TypeName.readEntry_next_lt hentry hcomma) (Cursor.rest_next hrest ▸ hmore)
          hdeep rfl]
        rfl
      | false =>
        rw [hcomma, if_neg Bool.false_ne_true] at h
        split at h <;> cases h

/-- A list that is too deep in a looser text is so in the tighter one. -/
theorem readTypeList_tooDeep {c : Cursor} (hsees : c'.sees '<' = true)
    (hloose : Loose c.rest c'.rest) (h : readTypeList room c' = .error .tooDeep) :
    readTypeList room c = .error .tooDeep := by
  induction room generalizing c c' with
  | zero => rfl
  | succ room ih =>
    rw [readTypeList_eq] at h ⊢
    obtain ⟨cs, hc, hcs⟩ := Loose.uncons rfl (Cursor.rest_of_sees hsees ▸ hloose)
    exact readEntries_tooDeep (fun c c' hsees hloose => ih hsees hloose)
      (Cursor.rest_next hc ▸ hcs) h

end

/-! ## Type arguments -/

section

variable {limit room : Nat} {c : Cursor}

/-- Type arguments are read the same, whatever follows. -/
theorem typeArguments?_found {ts : List TypeName} {d : Cursor}
    (h : typeArguments? limit room c = .ok (some ts, d)) :
    ∃ used, c.rest = used ++ d.rest ∧ ∀ more (c' : Cursor), c'.rest = used ++ more →
      ∃ d', typeArguments? limit room c' = .ok (some ts, d') ∧ d'.rest = more := by
  obtain ⟨hnone, -⟩ | ⟨ts, hts, hsees, hlist⟩ := typeArguments?_ok h
  · cases hnone
  cases hts
  obtain ⟨used, hused, htight⟩ := readTypeList_tightens hsees _ _ hlist
  refine ⟨used, hused, fun more c' hc' => ?_⟩
  obtain ⟨d', hd', hmore⟩ := htight used more c' (.refl used) trivial hc'
  have hargs : readArgs (readTypeList room) c = .ok (ts, d) := by
    rw [readArgs, hsees, if_pos rfl, hlist]
  obtain ⟨-, hnot⟩ | ⟨⟨rest, rfl⟩, -⟩ := readArgs_start hargs hused (.refl used)
  · cases hnot.symm.trans hsees
  · refine ⟨d', ?_, hmore⟩
    rw [typeArguments?, Cursor.sees_cons hc', if_pos (decide_eq_true rfl), hd']

/-- Where there are no type arguments, there are none in front of a looser text. -/
theorem typeArguments?_none {d : Cursor} (h : typeArguments? limit room c = .ok (none, d)) :
    d = c ∧ ∀ c' : Cursor, Loose c.rest c'.rest →
      typeArguments? limit room c' = .ok (none, c') := by
  obtain ⟨-, hd⟩ | ⟨ts, hts, -⟩ := typeArguments?_ok h
  · refine ⟨hd, fun c' hloose => ?_⟩
    rw [typeArguments?] at h ⊢
    cases hsees' : c'.sees '<' with
    | false => rfl
    | true =>
      rw [if_pos rfl]
      have hsees : c.sees '<' = true := by
        obtain ⟨cs, hc, -⟩ := Loose.uncons rfl (Cursor.rest_of_sees hsees' ▸ hloose)
        exact Cursor.sees_cons hc '<'
      rw [hsees, if_pos rfl] at h
      cases hlist' : readTypeList room c' with
      | ok found =>
        -- the list would have been read from the tighter text
        obtain ⟨used, hused, htight⟩ := readTypeList_tightens hsees' _ _ hlist'
        obtain ⟨cs, more, hc, hcs, -⟩ := Loose.split (hused ▸ hloose)
        obtain ⟨d, hd, -⟩ := htight cs more c hcs trivial hc
        rw [hd] at h
        cases h
      | error fault =>
        cases fault with
        | malformed => rfl
        | tooDeep =>
          rw [readTypeList_tooDeep hsees' hloose hlist'] at h
          cases h
  · cases hts

end

end Formula
