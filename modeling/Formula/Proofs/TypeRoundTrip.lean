import Formula.Proofs.LooseTypes

/-!
# Type arguments, written and read

A list of type arguments is read back from its text, whatever follows, exactly if its names and
those of its namespaces are identifiers and its lists nest no deeper than there is room
(`TypeName.arguments_round_trip`).

* **Identifiers** (`Identified`): what a type name is made of, part by part, and not by the path it
  is read from (`Spelled`). The two agree (`spelled_iff_identified`), and the parts can be checked.
* **Too deep** (`Spelled.refused`): the entries in front of the first one that is too deep are read
  back (`Spelled.legible`), and there reading ends. So a list that is too deep is never taken for
  one that is malformed.
-/

namespace Formula

/-! ## Identifiers -/

theorem isName_iff {cs : List Char} :
    IsName cs ↔ cs.head?.any isNameStart = true ∧ cs.all isNameChar = true := by
  rw [List.all_eq_true]
  constructor
  · rintro ⟨⟨x, rest, rfl, hx⟩, hchars⟩
    exact ⟨hx, hchars⟩
  · rintro ⟨hstart, hchars⟩
    cases cs with
    | nil => cases hstart
    | cons x rest => exact ⟨⟨x, rest, rfl, hstart⟩, hchars⟩

instance IsName.decidable (cs : List Char) : Decidable (IsName cs) :=
  decidable_of_iff _ isName_iff.symm

theorem IsName.dot_not_mem {cs : List Char} (h : IsName cs) : '.' ∉ cs := by
  intro hdot
  have hchar := h.chars '.' hdot
  cases hchar

/-- Where a text has been read, the rest begins behind it. -/
theorem Cursor.Reaches.eq_of_append {used more : List Char} {offset : Nat} {d : Cursor}
    (h : Cursor.Reaches ⟨used ++ more, offset⟩ d) (hd : d.rest = more) :
    d = ⟨more, offset + byteLength used⟩ := by
  obtain ⟨rest, after⟩ := d
  obtain ⟨used', hrest, hoffset⟩ := h
  cases hd
  cases List.append_cancel_right hrest
  exact congrArg (Cursor.mk rest) hoffset

namespace TypeName

/-- The text is that of names with dots between them, of one at least. -/
def IsDotted (text : String) : Prop :=
  ∃ names : List String, names ≠ [] ∧ (∀ name ∈ names, IsName name.toList) ∧
    text = ".".intercalate names

/-- The parts between the dots of such a text are the names. -/
theorem isDotted_iff {text : String} :
    IsDotted text ↔ ∀ piece ∈ text.toList.splitOn '.', IsName piece := by
  constructor
  · rintro ⟨names, hne, hnames, rfl⟩
    have hpieces : ∀ piece ∈ names.map String.toList, IsName piece := by
      simpa only [List.forall_mem_map] using hnames
    have hsplit :=
      List.splitOn_intercalate '.' (fun piece hpiece => (hpieces piece hpiece).dot_not_mem)
      (List.map_eq_nil_iff.not.mpr hne)
    rw [String.toList_intercalate, show ".".toList = ['.'] from rfl, hsplit]
    exact hpieces
  · intro h
    refine ⟨(text.toList.splitOn '.').map String.ofList,
      List.map_eq_nil_iff.not.mpr (List.splitOn_ne_nil _ _), ?_, ?_⟩
    · simpa only [List.forall_mem_map, String.toList_ofList] using h
    · have hpieces : ((text.toList.splitOn '.').map String.ofList).map String.toList =
          text.toList.splitOn '.' := by
        simp only [List.map_map, Function.comp_def, String.toList_ofList, List.map_id']
      rw [← String.toList_inj, String.toList_intercalate, hpieces, show ".".toList = ['.'] from rfl,
        List.intercalate_splitOn]

instance IsDotted.decidable (text : String) : Decidable (IsDotted text) :=
  decidable_of_iff _ isDotted_iff.symm

/-- The type name is made of identifiers: its name is one, its namespace is some of them with dots
between, and its type arguments are made of identifiers in turn. -/
inductive Identified : TypeName → Prop
  | parts {space : Option String} {name : String} {args : List TypeName}
      (hspace : ∀ text ∈ space, IsDotted text)
      (hname : IsName name.toList) (hargs : ∀ a ∈ args, a.Identified) :
        Identified ⟨space, name, args⟩

theorem identified_iff {space : Option String} {name : String} {args : List TypeName} :
    Identified ⟨space, name, args⟩ ↔
      (∀ text ∈ space, IsDotted text) ∧ IsName name.toList ∧ ∀ a ∈ args, a.Identified := by
  constructor
  · rintro ⟨hspace, hname, hargs⟩
    exact ⟨hspace, hname, hargs⟩
  · rintro ⟨hspace, hname, hargs⟩
    exact .parts hspace hname hargs

mutual

instance Identified.decidable : (t : TypeName) → Decidable t.Identified
  | ⟨_, _, args⟩ =>
    have := Identified.decidableAll args
    decidable_of_iff _ identified_iff.symm

instance Identified.decidableAll : (ts : List TypeName) → Decidable (∀ t ∈ ts, t.Identified)
  | [] => .isTrue (List.forall_mem_nil _)
  | t :: ts =>
    have := Identified.decidable t
    have := Identified.decidableAll ts
    decidable_of_iff _ List.forall_mem_cons.symm

end

/-- What is made of identifiers is what names on a path make. -/
theorem spelled_iff_identified {t : TypeName} : t.Spelled ↔ t.Identified := by
  constructor
  · intro h
    induction h with
    | @ofPath path args t hpath hargs ht ih =>
      obtain rfl | ⟨front, name, rfl⟩ := path.eq_nil_or_concat'
      · cases ht
      rw [ofPath?_concat] at ht
      cases ht
      obtain ⟨hfront, hname⟩ := List.forall_mem_append.mp hpath
      refine .parts (fun text htext => ?_) (hname name (List.mem_singleton_self name)) ih
      cases front with
      | nil => cases htext
      | cons first names =>
        cases htext
        exact ⟨_, List.cons_ne_nil _ _, hfront, rfl⟩
  · intro h
    induction h with
    | @parts space name args hspace hname hargs ih =>
      cases space with
      | none => exact .ofPath (List.forall_mem_singleton.mpr hname) ih rfl
      | some text =>
        obtain ⟨front, hne, hfront, rfl⟩ := hspace text rfl
        refine .ofPath (List.forall_mem_append.mpr ⟨hfront, List.forall_mem_singleton.mpr hname⟩) ih
          ?_
        rw [ofPath?_concat, if_neg (List.isEmpty_iff.not.mpr hne)]

/-! ## Lists that are too deep -/

theorem lt_nestingAll {ts : List TypeName} {k : Nat} :
    k < nestingAll ts ↔ ∃ t ∈ ts, k ≤ t.nesting := by
  rw [← Nat.not_le, nestingAll_le]
  simp only [not_forall, Nat.not_lt, exists_prop]

/-- A type name that is refused as too deep, whatever may stand behind it in a list. -/
def Refused (room : Nat) (t : TypeName) : Prop :=
  ∀ more, Followed more → ∀ c : Cursor, c.rest = t.text.toList ++ more →
    readTypeName (readTypeList room) c = .error .tooDeep

theorem Spelled.start {t : TypeName} (h : t.Spelled) (more : List Char) :
    StopsAt isBlank (t.text.toList ++ more) :=
  (h.legible (Nat.le_refl _)).start more

section

variable {room : Nat} {a b t : TypeName} {blanks more : List Char} {c : Cursor}

/-- Where the first entry is refused, no other is looked at. -/
theorem Refused.readEntries (h : t.Refused room) (hspelled : t.Spelled) (hblanks : Blank blanks)
    (hmore : Followed more) (hc : c.rest = blanks ++ (t.text.toList ++ more)) :
    readEntries room c = .error .tooDeep := by
  have hentry : readEntry room c = .error .tooDeep :=
    h more hmore _ (Cursor.rest_skipBlanks_append hblanks (hspelled.start more) hc)
  rw [readEntries_eq, hentry]
  rfl

/-- Where the first entry is read back, those behind the comma are read next. -/
theorem Legible.readEntries (h : a.Legible room) (hblanks : Blank blanks)
    (hc : c.rest = blanks ++ (a.text.toList ++ (furtherText b ++ more))) :
    ∃ d : Cursor, d.rest = [' '] ++ (b.text.toList ++ more) ∧
      readEntries room c = readEntries room d >>= fun others => .ok (a :: others.1, others.2) := by
  obtain ⟨_, e, hentry, he, rfl⟩ := h.readEntry hblanks (followed_cons (.inl rfl) _) c hc
  have hskip := Cursor.rest_skipBlanks (stopsAt_cons rfl) he
  refine ⟨e.skipBlanks.next, Cursor.rest_next hskip, ?_⟩
  rw [readEntries_eq, hentry]
  exact if_pos (Cursor.sees_cons hskip ',')

/-- Entries of which one is refused are refused. -/
theorem readEntries_refused {ts : List TypeName} (h : ∀ t ∈ a :: ts, t.Spelled)
    (hrefused : ∀ t ∈ a :: ts, room < t.nesting → t.Refused room)
    (hdeep : ∃ t ∈ a :: ts, room < t.nesting) (hblanks : Blank blanks)
    (hc : c.rest = blanks ++ (a.text.toList ++ (ts.flatMap furtherText ++ '>' :: more))) :
    TypeName.readEntries room c = .error .tooDeep := by
  induction ts generalizing a blanks c with
  | nil =>
    obtain ⟨t, ht, hroom⟩ := hdeep
    cases List.mem_singleton.mp ht
    exact (hrefused a ht hroom).readEntries (h a ht) hblanks (followed_further [] more) hc
  | cons b ts ih =>
    obtain ⟨ha, hts⟩ := List.forall_mem_cons.mp h
    obtain ⟨harefused, htsrefused⟩ := List.forall_mem_cons.mp hrefused
    by_cases hroom : room < a.nesting
    · exact (harefused hroom).readEntries ha hblanks (followed_further _ more) hc
    · -- the first entry is read back, so one of the others is too deep
      have hothers : ∃ t ∈ b :: ts, room < t.nesting :=
        (List.or_exists_of_exists_mem_cons hdeep).resolve_left hroom
      rw [List.flatMap_cons, List.append_assoc] at hc
      obtain ⟨d, hd, hread⟩ := (ha.legible (Nat.le_of_not_lt hroom)).readEntries hblanks hc
      rw [hread, ih hts htsrefused hothers blank_space hd]
      rfl

/-- A list of type arguments that is too deep is refused, if those of its entries that are too deep
are. -/
theorem readTypeList_refused {args : List TypeName} (h : ∀ t ∈ args, t.Spelled)
    (hrefused : ∀ t ∈ args, ∀ {room}, room < t.nesting → t.Refused room)
    (hdeep : room < nestingAll args) (hc : c.rest = (argumentText args).toList ++ more) :
    readTypeList room c = .error .tooDeep := by
  cases room with
  | zero => rfl
  | succ room =>
    have hentry : ∃ t ∈ args, room < t.nesting := lt_nestingAll.mp hdeep
    cases args with
    | nil =>
      obtain ⟨t, ht, -⟩ := hentry
      cases ht
    | cons a ts =>
      rw [toList_argumentText_cons, List.append_assoc, List.cons_append, List.append_assoc] at hc
      rw [readTypeList_eq]
      exact readEntries_refused h (fun t ht hroom => hrefused t ht hroom) hentry
        (List.forall_mem_nil _) (Cursor.rest_next hc)

/-- **A type name in which lists nest deeper than there is room is refused.** -/
theorem Spelled.refused (h : t.Spelled) (hroom : room < t.nesting) : t.Refused room := by
  induction h generalizing room with
  | @ofPath path args t hpath hargs ht ih =>
    intro more hmore c hc
    cases path with
    | nil => cases ht
    | cons first names =>
      have hend : StopsAt isNameChar ((argumentText args).toList ++ more) :=
        stopsAt_argumentText rfl args (hmore.stopsAt rfl rfl)
      have hdot : StopsAt (· = '.') ((argumentText args).toList ++ more) :=
        stopsAt_argumentText rfl args (hmore.stopsAt rfl rfl)
      rw [toList_text_ofPath? ht, ← List.append_assoc first.toList, List.append_assoc] at hc
      obtain ⟨d, hd, hread⟩ := readTypeName_path hpath hend hdot hc (readTypeList room)
      rw [nesting_eq, ofPath?_args ht] at hroom
      have hlist : readTypeList room d = .error .tooDeep := readTypeList_refused hargs ih hroom hd
      have hsees : d.sees '<' = true := by
        cases args with
        | nil => cases hroom
        | cons a args => exact Cursor.sees_cons (toList_argumentText_cons a args ▸ hd) '<'
      rw [hread, readArgs, if_pos hsees, hlist]
      rfl

end

/-! ## Written and read -/

/-- Type names with commas between them, in angle brackets. -/
def bracketed (args : List TypeName) : List Char :=
  ("<" ++ ", ".intercalate (args.map text) ++ ">").toList

theorem toList_argumentText {args : List TypeName} (hne : args ≠ []) :
    (argumentText args).toList = bracketed args := by
  rw [argumentText, if_neg (List.isEmpty_iff.not.mpr hne), bracketed]

private theorem sees_bracketed (args : List TypeName) (more : List Char) (offset : Nat) :
    Cursor.sees ⟨bracketed args ++ more, offset⟩ '<' = true := by
  rw [bracketed, String.toList_append, String.toList_append]
  rfl

private theorem readTypeList_ne_nil {room : Nat} {c d : Cursor} {ts : List TypeName}
    (h : readTypeList room c = .ok (ts, d)) :
    ts ≠ [] := by
  cases room with
  | zero => cases h
  | succ room =>
    exact readEntries_induction (motive := fun _ ts _ => ts ≠ [])
      (fun _ _ _ => List.cons_ne_nil _ _) (fun _ _ => List.cons_ne_nil _ _) h

/-- **Type arguments are read back** from their texts with commas between them, in angle brackets.
Whatever follows, the list comes back and the cursor stands behind the last bracket exactly if there
are type arguments, they are made of identifiers, and they nest no deeper than the `room` that is
left. Those that nest deeper exceed the `limit`. -/
theorem arguments_round_trip (args : List TypeName) (limit room offset : Nat) (more : List Char) :
    (typeArguments? limit room ⟨bracketed args ++ more, offset⟩ =
        .ok (some args, ⟨more, offset + byteLength (bracketed args)⟩) ↔
      args ≠ [] ∧ (∀ t ∈ args, t.Identified) ∧ nestingAll args ≤ room) ∧
    (args ≠ [] → (∀ t ∈ args, t.Identified) → room < nestingAll args →
      typeArguments? limit room ⟨bracketed args ++ more, offset⟩ =
        .error (.limitExceeded .nestingDepth limit)) := by
  have hspelled (hargs : ∀ t ∈ args, t.Identified) : ∀ t ∈ args, t.Spelled :=
    fun t ht => spelled_iff_identified.mpr (hargs t ht)
  refine ⟨⟨fun hread => ?_, ?_⟩, fun hne hargs hdeep => ?_⟩
  · obtain ⟨hnone, -⟩ | ⟨ts, hts, -, hlist⟩ := typeArguments?_ok hread
    · cases hnone
    · cases hts
      exact ⟨readTypeList_ne_nil hlist,
        fun t ht => spelled_iff_identified.mp (readTypeList_spelled hlist t ht),
        readTypeList_nesting hlist⟩
  · rintro ⟨hne, hargs, hroom⟩
    obtain ⟨_, d, hread, hd, rfl⟩ := typeArguments?_text hne (hspelled hargs) hroom limit more
      ⟨bracketed args ++ more, offset⟩ (by rw [toList_argumentText hne])
    rw [hread, (typeArguments?_reaches hread).eq_of_append hd]
  · have hlist : readTypeList room ⟨bracketed args ++ more, offset⟩ = .error .tooDeep :=
      readTypeList_refused (hspelled hargs) (fun t ht => (hspelled hargs t ht).refused) hdeep
        (by rw [toList_argumentText hne])
    rw [typeArguments?, if_pos (sees_bracketed args more offset), hlist]

/-- Brackets that close three lists, with a further one behind them that does not belong to any. -/
theorem arguments_round_trip_closers :
    let args : List TypeName :=
      [simple "_x1", ⟨some "Demo.Sub", "Pair", [simple "int", ⟨none, "List", [simple "double"]⟩]⟩]
    let source : List Char := "<_x1, Demo.Sub.Pair<int, List<double>>>>()".toList
    (∀ t ∈ args, t.Identified) ∧ nestingAll args = 3 ∧
      typeArguments? 3 3 ⟨source, 4⟩ = .ok (some args, ⟨">()".toList, 43⟩) ∧
      typeArguments? 3 2 ⟨source, 4⟩ = .error (.limitExceeded .nestingDepth 3) := by
  intro args source
  have hargs : ∀ t ∈ args, t.Identified := by decide
  have hnesting : nestingAll args = 3 := by decide
  have hsource : source = bracketed args ++ ">()".toList := by decide
  have hlength : byteLength (bracketed args) = 39 := by decide
  have hread :=
    (arguments_round_trip args 3 3 4 ">()".toList).1.mpr ⟨List.cons_ne_nil _ _, hargs, hnesting.le⟩
  have hdeep :=
    (arguments_round_trip args 3 2 4 ">()".toList).2 (List.cons_ne_nil _ _) hargs (by omega)
  rw [← hsource, hlength] at hread
  rw [← hsource] at hdeep
  exact ⟨hargs, hnesting, hread, hdeep⟩

end TypeName

end Formula
