import Formula.Proofs.Nesting
import Formula.Proofs.Tokens

/-!
# Type names read back

The text of a type name is read to that type name, and that of a list of type arguments to the list
(`TypeName.typeArguments?_text`), if they are written with names (`TypeName.Spelled`). All that is
read is (`typeArguments?_spelled`).

`Gets`, `Finds` and `Stops` say what a reader does with a text, of whatever kind its state is: it
reads something and leaves a rest, it finds something, or it finds nothing.
-/

namespace Formula

/-! ## Texts and rests -/

section

variable {σ ε α β : Type} (text : σ → List Char)

/-- From the text `cs` something with `Q` is read, and `more` is left. -/
def Gets (read : σ → Except ε (α × σ)) (cs more : List Char) (Q : α → Prop) : Prop :=
  ∀ s, text s = cs → ∃ a t, read s = .ok (a, t) ∧ text t = more ∧ Q a

/-- In front of the text `cs` something with `Q` is found, and `more` is left. -/
def Finds (step : σ → Except ε (Option (α × σ))) (cs more : List Char) (Q : α → Prop) : Prop :=
  ∀ s, text s = cs → ∃ a t, step s = .ok (some (a, t)) ∧ text t = more ∧ Q a

/-- Nothing is found in front of the text `cs`. -/
def Stops (step : σ → Except ε (Option (α × σ))) (cs : List Char) : Prop :=
  ∀ s, text s = cs → step s = .ok none

variable {text} {size : σ → Nat} {step : σ → Except ε (Option (α × σ))} {cs mid more : List Char}

theorem Gets.mono {read : σ → Except ε (α × σ)} {Q Q' : α → Prop} (h : Gets text read cs more Q)
    (hQ : ∀ a, Q a → Q' a) : Gets text read cs more Q' := by
  intro s hs
  obtain ⟨a, t, hread, ht, ha⟩ := h s hs
  exact ⟨a, t, hread, ht, hQ a ha⟩

theorem Stops.many (h : Stops text step cs) : Gets text (many size step) cs cs (· = []) :=
  fun s hs => ⟨[], s, many_of_none (h s hs), hs, rfl⟩

/-- One step, and then the others; each leaves less to read. -/
theorem Finds.many {Q : α → Prop} {Qs : List α → Prop} (hsize : ∀ s, size s = (text s).length)
    (h : Finds text step cs mid Q) (hlt : mid.length < cs.length)
    (hrest : Gets text (Formula.many size step) mid more Qs) :
    Gets text (Formula.many size step) cs more fun as => ∃ a rest, as = a :: rest ∧
      Q a ∧ Qs rest := by
  intro s hs
  obtain ⟨a, t, hstep, ht, ha⟩ := h s hs
  obtain ⟨rest, u, hmany, hu, hrest⟩ := hrest t ht
  refine ⟨a :: rest, u, ?_, hu, a, rest, rfl, ha, hrest⟩
  have hlt : size t < size s := by rwa [hsize, hsize, hs, ht]
  rw [many_eq, hstep]
  show (if size t < size s then _ else _) = _
  rw [if_pos hlt, hmany]
  rfl

/-- Pieces one behind the other are found one after the other. `F` is what may follow a piece. -/
theorem gets_many_flatMap {xs : List β} {piece : β → List Char} {R : α → β → Prop}
    {F : List Char → Prop} (hsize : ∀ s, size s = (text s).length) (hne : ∀ x ∈ xs, piece x ≠ [])
    (hfollow : ∀ x ∈ xs, ∀ more, F (piece x ++ more))
    (hfinds : ∀ x ∈ xs, ∀ more, F more → Finds text step (piece x ++ more) more (R · x))
    (hmore : F more) (hstops : Stops text step more) :
    Gets text (many size step) (xs.flatMap piece ++ more) more fun as => List.Forall₂ R as xs := by
  induction xs with
  | nil => exact hstops.many.mono fun as has => has ▸ .nil
  | cons x xs ih =>
    obtain ⟨hx, hxs⟩ := List.forall_mem_cons.mp hfinds
    obtain ⟨hnex, hnexs⟩ := List.forall_mem_cons.mp hne
    obtain ⟨-, hfollows⟩ := List.forall_mem_cons.mp hfollow
    have hrest := ih hnexs hfollows hxs
    have hF : F (xs.flatMap piece ++ more) := by
      cases xs with
      | nil => exact hmore
      | cons y ys =>
        rw [List.flatMap_cons, List.append_assoc]
        exact hfollows y List.mem_cons_self _
    have hlt :
        (xs.flatMap piece ++ more).length < (piece x ++ (xs.flatMap piece ++ more)).length := by
      have hpos := List.length_pos_of_ne_nil hnex
      simp only [List.length_append]
      omega
    rw [List.flatMap_cons, List.append_assoc]
    refine ((hx _ hF).many hsize hlt hrest).mono ?_
    rintro _ ⟨a, rest, rfl, ha, hrest⟩
    exact .cons ha hrest

end

/-- A joined text: the first part, and each further one behind what separates them. -/
theorem toList_intercalate_cons (sep x : String) (xs : List String) :
    (sep.intercalate (x :: xs)).toList = x.toList ++ xs.flatMap fun y =>
      sep.toList ++ y.toList := by
  induction xs generalizing x with
  | nil => simp
  | cons y ys ih =>
    rw [String.intercalate_cons_cons, String.toList_append, String.toList_append, ih,
      List.flatMap_cons, List.append_assoc, List.append_assoc]

/-! ## Cursors -/

namespace Cursor

variable {c : Cursor} {x : Char} {cs : List Char}

theorem rest_next (h : c.rest = x :: cs) : c.next.rest = cs := by
  rw [next, h]

theorem sees_cons (h : c.rest = x :: cs) (y : Char) : c.sees y = decide (x = y) := by
  rw [sees, peek?, h, List.head?_cons]
  simp only [Option.some.injEq]

theorem rest_skipBlanks_append {blanks : List Char} (hblanks : Blank blanks)
    (hcs : StopsAt isBlank cs) (hc : c.rest = blanks ++ cs) : c.skipBlanks.rest = cs := by
  obtain ⟨_, offset⟩ := c
  subst hc
  rw [skipBlanks_append hblanks, skipBlanks_of_stops hcs]

theorem rest_skipBlanks (hcs : StopsAt isBlank cs) (hc : c.rest = cs) : c.skipBlanks.rest = cs :=
  rest_skipBlanks_append (List.forall_mem_nil _) hcs hc

end Cursor

theorem blank_space : Blank [' '] := by simp [Blank, isBlank]

/-! ## Names -/

/-- A name goes on up to something else. -/
theorem IsName.span {cs more : List Char} (h : IsName cs) (hmore : StopsAt isNameChar more)
    {c : Cursor} (hc : c.rest = cs ++ more) :
    ∃ c', c.span isNameChar = (cs, c') ∧ c'.rest = more := by
  refine ⟨(c.span isNameChar).2, Prod.ext ?_ rfl, ?_⟩
  · rw [Cursor.span, hc, hmore.takeWhile h.chars]
  · rw [Cursor.span, hc, hmore.dropWhile h.chars]

theorem IsName.name? {cs more : List Char} (h : IsName cs) (hmore : StopsAt isNameChar more)
    {c : Cursor} (hc : c.rest = cs ++ more) :
    ∃ c', c.name? = some (String.ofList cs, c') ∧ c'.rest = more := by
  obtain ⟨c', hspan, hc'⟩ := h.span hmore hc
  obtain ⟨x, rest, rfl, hx⟩ := h.start
  refine ⟨c', ?_, hc'⟩
  simp only [Cursor.name?, Cursor.peek?, hc, List.cons_append, List.head?_cons, if_pos hx, hspan]

theorem isName_of_name? {c c' : Cursor} {name : String} (h : c.name? = some (name, c')) :
    IsName name.toList := by
  unfold Cursor.name? at h
  split at h
  · rename_i x hpeek
    split at h
    · rename_i hx
      cases h
      rw [String.toList_ofList]
      exact Cursor.isName_span hpeek hx
    · cases h
  · cases h

namespace TypeName

/-- The type name is written with names: those of its path, and those of its type arguments. -/
inductive Spelled : TypeName → Prop
  | ofPath {path : List String} {args : List TypeName} {t : TypeName}
      (hpath : ∀ name ∈ path, IsName name.toList)
      (hargs : ∀ a ∈ args, a.Spelled) (ht : TypeName.ofPath? path args = some t) : Spelled t

theorem text_eq (space : Option String) (name : String) (args : List TypeName) :
    text ⟨space, name, args⟩ = space.elim "" (· ++ ".") ++ name ++ argumentText args := by
  cases space <;> cases args <;> simp [text, argumentText]

theorem ofPath?_concat (front : List String) (name : String) (args : List TypeName) :
    ofPath? (front ++ [name]) args =
      some ⟨if front.isEmpty then none else some (".".intercalate front), name, args⟩ := by
  simp only [ofPath?, List.getLast?_concat, List.dropLast_concat]

theorem text_ofPath? {path : List String} {args : List TypeName} {t : TypeName}
    (h : ofPath? path args = some t) :
    t.text = ".".intercalate path ++ argumentText args := by
  obtain rfl | ⟨front, name, rfl⟩ := path.eq_nil_or_concat'
  · cases h
  rw [ofPath?_concat, Option.some.injEq] at h
  rw [← h, text_eq]
  cases front with
  | nil => simp
  | cons first more =>
    rw [String.intercalate_append_of_ne_nil (by simp) (by simp), String.intercalate_singleton]
    simp

/-- The text of a type name begins with its path, the names of which are read one after the
other. -/
theorem toList_text_ofPath? {first : String} {others : List String}
    {args : List TypeName} {t : TypeName} (h : ofPath? (first :: others) args = some t) :
    t.text.toList = first.toList ++
      (others.flatMap (fun name => '.' :: name.toList) ++ (argumentText args).toList) := by
  rw [text_ofPath? h, String.toList_append, toList_intercalate_cons, List.append_assoc]
  rfl

/-- What stands behind a type name in a list. -/
def Followed (more : List Char) : Prop := ∀ x ∈ more.head?, x = ',' ∨ x = '>'

theorem Followed.stopsAt {more : List Char} (h : Followed more) {p : Char → Bool}
    (hcomma : p ',' = false) (hclose : p '>' = false) : StopsAt p more := by
  intro x hx
  rcases h x hx with rfl | rfl
  · exact hcomma
  · exact hclose

theorem gets_dotNames {names : List String} (h : ∀ name ∈ names, IsName name.toList)
    {more : List Char} (hmore : StopsAt isNameChar more) (hdot : ∀ x ∈ more.head?, x ≠ '.')
    {ε : Type} :
    Gets Cursor.rest (many (·.rest.length) (dotName (ε := ε)))
      (names.flatMap (fun name => '.' :: name.toList) ++ more) more (· = names) := by
  refine Gets.mono (gets_many_flatMap (R := Eq) (F := StopsAt isNameChar) (fun _ => rfl) ?_
    ?_ ?_ hmore ?_) ?_
  · simp
  · exact fun name _ more => stopsAt_cons rfl
  · intro name hname more hmore c hc
    have hname := h name hname
    obtain ⟨x, rest, hstart, hx⟩ := hname.start
    obtain ⟨c', hc', hrest⟩ := hname.name? hmore (Cursor.rest_next hc)
    refine ⟨name, c', ?_, hrest, rfl⟩
    have hsees : c.seesDotName = true := by
      simp [Cursor.seesDotName, hc, hstart, hx]
    rw [dotName, hsees, if_pos rfl, hc', String.ofList_toList]
  · intro c hc
    have hsees : c.seesDotName = false := by
      unfold Cursor.seesDotName
      split
      · rename_i dot x _ hrest
        have := hdot dot (by rw [← hc, hrest]; rfl)
        simp [this]
      · rfl
    rw [dotName, hsees]
    rfl
  · exact fun names' h => List.forall₂_eq_eq_eq ▸ h

/-- A type name that is read back, whatever may stand behind it in a list. -/
def ReadBack (room : Nat) (t : TypeName) : Prop :=
  ∀ more, Followed more →
    Gets Cursor.rest (readTypeName (readTypeList room)) (t.text.toList ++ more) more (· = t)

/-- The text of a further type argument. -/
def furtherText (t : TypeName) : List Char := ',' :: ' ' :: t.text.toList

theorem toList_argumentText_cons (a : TypeName) (args : List TypeName) :
    (argumentText (a :: args)).toList =
      '<' :: (a.text.toList ++ args.flatMap furtherText) ++ ['>'] := by
  have hargs : (args.map text).flatMap (fun y => ", ".toList ++ y.toList) =
      args.flatMap furtherText := by
    rw [List.flatMap_map]
    rfl
  simp only [argumentText, List.isEmpty_cons, Bool.false_eq_true, if_false, List.map_cons,
    String.toList_append, toList_intercalate_cons, hargs]
  rfl

/-- A type name that starts with no blank, and is read back. -/
structure Legible (room : Nat) (t : TypeName) : Prop where
  start (more : List Char) : StopsAt isBlank (t.text.toList ++ more)
  readBack : t.ReadBack room

/-- Reads a type name behind blanks. -/
def readEntry (room : Nat) (c : Cursor) : Except ListFault (TypeName × Cursor) :=
  readTypeName (readTypeList room) c.skipBlanks

/-- Reads a further type name, if a comma announces it. -/
def readNextEntry (room : Nat) (c : Cursor) : Except ListFault (Option (TypeName × Cursor)) :=
  if c.skipBlanks.sees ',' then (readEntry room c.skipBlanks.next).map some else .ok none

theorem readTypeList_succ (room : Nat) (c : Cursor) :
    readTypeList (room + 1) c = readEntry room c.next >>= fun first =>
      many (·.rest.length) (readNextEntry room) first.2 >>= fun more =>
        if more.2.skipBlanks.sees '>' then .ok (first.1 :: more.1, more.2.skipBlanks.next)
        else .error .malformed := rfl

theorem Legible.readEntry {room : Nat} {t : TypeName} (h : t.Legible room) {blanks more : List Char}
    (hblanks : Blank blanks) (hmore : Followed more) :
    Gets Cursor.rest (readEntry room) (blanks ++ (t.text.toList ++ more)) more (· = t) :=
  fun _ hc => h.readBack more hmore _ (Cursor.rest_skipBlanks_append hblanks (h.start more) hc)

theorem followed_cons {x : Char} (h : x = ',' ∨ x = '>') (more : List Char) :
    Followed (x :: more) := by
  rintro y hy
  cases hy
  exact h

theorem followed_further (args : List TypeName) (more : List Char) :
    Followed (args.flatMap furtherText ++ '>' :: more) := by
  cases args with
  | nil => exact followed_cons (.inr rfl) more
  | cons t args => exact followed_cons (.inl rfl) _

theorem Legible.readNextEntry {room : Nat} {t : TypeName} (h : t.Legible room) {more : List Char}
    (hmore : Followed more) :
    Finds Cursor.rest (readNextEntry room) (furtherText t ++ more) more (· = t) := by
  intro c hc
  have hskip := Cursor.rest_skipBlanks (stopsAt_cons rfl) hc
  obtain ⟨t', c', hread, hc', ht⟩ := h.readEntry blank_space hmore _ (Cursor.rest_next hskip)
  refine ⟨t', c', ?_, hc', ht⟩
  rw [TypeName.readNextEntry, Cursor.sees_cons hskip, hread]
  rfl

/-- A list of type arguments that are read back one level further in is read back. -/
theorem readTypeList_gets {room : Nat} {a : TypeName} {args : List TypeName}
    (h : ∀ t ∈ a :: args, t.Legible room) (more : List Char) :
    Gets Cursor.rest (readTypeList (room + 1)) ((argumentText (a :: args)).toList ++ more)
      more (· = a :: args) := by
  obtain ⟨hfirst, hothers⟩ := List.forall_mem_cons.mp h
  have hend : Followed ('>' :: more) := followed_cons (.inr rfl) more
  have hclose : ∀ c : Cursor, c.rest = '>' :: more → c.skipBlanks.rest = '>' :: more :=
    fun c hc => Cursor.rest_skipBlanks (stopsAt_cons rfl) hc
  have hstops : Stops Cursor.rest (readNextEntry room) ('>' :: more) := by
    intro c hc
    rw [readNextEntry, Cursor.sees_cons (hclose c hc)]
    rfl
  have hmany : Gets Cursor.rest (many (·.rest.length) (readNextEntry room))
      (args.flatMap furtherText ++ '>' :: more) ('>' :: more) (List.Forall₂ Eq · args) :=
    gets_many_flatMap (fun _ => rfl) (fun _ _ => List.cons_ne_nil _ _)
      (fun _ _ _ => followed_cons (.inl rfl) _) (fun t ht _ => (hothers t ht).readNextEntry)
      hend hstops
  intro c hc
  rw [toList_argumentText_cons, List.append_assoc, List.cons_append, List.append_assoc] at hc
  obtain ⟨first, c₁, hread₁, hc₁, hfirst⟩ :=
    hfirst.readEntry (List.forall_mem_nil _) (followed_further args more) _ (Cursor.rest_next hc)
  obtain ⟨others, c₂, hread₂, hc₂, hothers⟩ := hmany c₁ hc₁
  rw [List.forall₂_eq_eq_eq] at hothers
  have hsees := Cursor.sees_cons (hclose c₂ hc₂) '>'
  refine ⟨first :: others, c₂.skipBlanks.next, ?_,
    Cursor.rest_next (hclose c₂ hc₂), by rw [hfirst, hothers]⟩
  simp only [readTypeList_succ, hread₁, hread₂, bind, Except.bind, hsees, decide_true, if_true]

/-- The type arguments of a name are read back, if there are any. -/
theorem gets_argumentText {room : Nat} {args : List TypeName}
    (h : ∀ t ∈ args, ∀ {room}, t.nesting ≤ room → t.Legible room) (hroom : nestingAll args ≤ room)
    {more : List Char} (hmore : Followed more) :
    Gets Cursor.rest (fun c => if c.sees '<' then readTypeList room c else .ok ([], c))
      ((argumentText args).toList ++ more) more (· = args) := by
  cases args with
  | nil =>
    intro c hc
    have hsees : ¬ c.sees '<' = true := by
      rw [Cursor.sees, Cursor.peek?, show c.rest = more from hc, decide_eq_true_eq]
      intro hopen
      rcases hmore _ hopen with h | h <;> cases h
    exact ⟨[], c, if_neg hsees, hc, rfl⟩
  | cons a args =>
    cases room with
    | zero =>
      rw [nestingAll] at hroom
      omega
    | succ room =>
      have hlegible : ∀ t ∈ a :: args, t.Legible room := fun t ht =>
        h t ht (Nat.le_of_lt_succ (nestingAll_le.mp hroom t ht))
      intro c hc
      have hsees : c.sees '<' = true := Cursor.sees_cons (toList_argumentText_cons a args ▸ hc) '<'
      have hread := readTypeList_gets hlegible more c hc
      simpa only [hsees, if_true] using hread

theorem stopsAt_argumentText {p : Char → Bool} (hopen : p '<' = false) (args : List TypeName)
    {more : List Char} (hmore : StopsAt p more) :
    StopsAt p ((argumentText args).toList ++ more) := by
  cases args with
  | nil => exact hmore
  | cons a args =>
    rw [toList_argumentText_cons]
    exact stopsAt_cons hopen

/-- **A type name is read back**, if the lists of type arguments in it nest no deeper than there is
room. -/
theorem Spelled.legible {t : TypeName} (h : t.Spelled) {room : Nat} (hroom : t.nesting ≤ room) :
    t.Legible room := by
  induction h generalizing room with
  | @ofPath path args t hpath hargs ht ih =>
    cases path with
    | nil => cases ht
    | cons first others =>
      obtain ⟨hfirst, hothers⟩ := List.forall_mem_cons.mp hpath
      have htext := toList_text_ofPath? ht
      refine ⟨fun more => ?_, fun more hmore c hc => ?_⟩
      · obtain ⟨x, rest, hstart, hx⟩ := hfirst.start
        rw [htext, hstart]
        exact stopsAt_cons (Bool.eq_false_iff.mpr fun hblank =>
          not_mem_delimiters (p := isNameStart) rfl hx (mem_delimiters_of_isBlank hblank))
      · rw [nesting_eq, ofPath?_args ht] at hroom
        have hend : StopsAt isNameChar ((argumentText args).toList ++ more) :=
          stopsAt_argumentText rfl args (hmore.stopsAt rfl rfl)
        have hdot : StopsAt (· = '.') ((argumentText args).toList ++ more) :=
          stopsAt_argumentText rfl args (hmore.stopsAt rfl rfl)
        have hnames : StopsAt isNameChar (others.flatMap (fun name => '.' :: name.toList) ++
            ((argumentText args).toList ++ more)) := by
          cases others with
          | nil => exact hend
          | cons name others => exact stopsAt_cons rfl
        rw [htext, List.append_assoc, List.append_assoc] at hc
        obtain ⟨c₁, hname, hc₁⟩ := hfirst.name? hnames hc
        obtain ⟨names, c₂, hmany, hc₂, rfl⟩ :=
          gets_dotNames (ε := ListFault) hothers hend (by simpa [StopsAt] using hdot) c₁ hc₁
        obtain ⟨as, c₃, hlist, hc₃, rfl⟩ := gets_argumentText ih hroom hmore c₂ hc₂
        refine ⟨t, c₃, ?_, hc₃, rfl⟩
        rw [String.ofList_toList] at hname
        simp only [readTypeName, hname, hmany, bind, Except.bind]
        -- without type arguments there is no list to read
        by_cases hsees : c₂.sees '<' = true
        · simp only [hsees, if_true] at hlist
          simp only [hsees, if_true, hlist, ht]
        · simp only [hsees] at hlist
          cases hlist
          rw [if_neg hsees, ht]

/-- **A list of type arguments is read back.** -/
theorem typeArguments?_text {args : List TypeName} (hne : args ≠ []) (h : ∀ t ∈ args, t.Spelled)
    {room : Nat} (hroom : nestingAll args ≤ room) (limit : Nat) (more : List Char) :
    Gets Cursor.rest (typeArguments? limit room) ((argumentText args).toList ++ more)
      more (· = some args) := by
  obtain ⟨a, others, rfl⟩ := List.exists_cons_of_ne_nil hne
  cases room with
  | zero =>
    rw [nestingAll] at hroom
    omega
  | succ room =>
    intro c hc
    have hlegible : ∀ t ∈ a :: others, t.Legible room := fun t ht =>
      (h t ht).legible (Nat.le_of_lt_succ (nestingAll_le.mp hroom t ht))
    have hsees : c.sees '<' = true := Cursor.sees_cons (toList_argumentText_cons a others ▸ hc) '<'
    obtain ⟨args, c', hread, hc', rfl⟩ := readTypeList_gets hlegible more c hc
    exact ⟨some (a :: others), c', by rw [typeArguments?, if_pos hsees, hread], hc', rfl⟩

/-! ## All that is read is spelled -/

theorem readTypeList_spelled {room : Nat} {c c' : Cursor} {ts : List TypeName}
    (h : readTypeList room c = .ok (ts, c')) : ∀ t ∈ ts, t.Spelled := by
  induction room generalizing c c' ts with
  | zero => cases h
  | succ room ih =>
    obtain ⟨inner, hroom, hts⟩ := readTypeList_ok h
    cases hroom
    intro t ht
    obtain ⟨d, d', hread⟩ := hts t ht
    obtain ⟨path, args, hpath, hnames, hargs⟩ := readTypeName_ok hread
    refine .ofPath (fun name hname => ?_) ?_ hpath
    · obtain ⟨_, _, hname⟩ := hnames name hname
      exact isName_of_name? hname
    · rcases hargs with rfl | ⟨_, _, hargs⟩
      · exact List.forall_mem_nil _
      · exact ih hargs

/-- **Type arguments are read as names only.** -/
theorem typeArguments?_spelled {limit room : Nat} {c c' : Cursor}
    {generics : Option (List TypeName)} (h : typeArguments? limit room c = .ok (generics, c')) :
    ∀ t ∈ generics.getD [], t.Spelled := by
  unfold typeArguments? at h
  split at h
  · split at h
    · rename_i hlist
      cases h
      exact readTypeList_spelled hlist
    · cases h
      exact List.forall_mem_nil _
    · cases h
  · cases h
    exact List.forall_mem_nil _

end TypeName

end Formula
