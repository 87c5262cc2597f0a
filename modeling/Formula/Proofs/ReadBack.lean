import Formula.Proofs.Rendering

/-!
# Trees read back

The text of a tree is read to the tree that it shows (`Node.ofSource_render`), if all elements of
the tree are plain and spelled, and its levels are within the bound on nesting.

A node is read back in one of two ways: as an item of a block, in parentheses if it is a block
itself (`Node.ItemReadsBack`), and if it is a block, up to what ends the list of its items
(`Node.ContentsReadBack`). Arguments are read in the second way.
-/

namespace Formula

/-! ## Where elements start and lists end -/

/-- What a reader has left to read. -/
def Reader.text (r : Reader) : List Char := r.cursor.rest

/-- The text starts with an element. -/
def Starts (cs : List Char) : Prop :=
  ∃ x rest, cs = x :: rest ∧ isBlank x = false ∧ endsElements x = false

theorem starts_of_not_mem {x : Char} (h : x ∉ delimiters) (cs : List Char) : Starts (x :: cs) :=
  ⟨x, cs, rfl, Bool.eq_false_iff.mpr fun hx => h (mem_delimiters_of_isBlank hx),
    Bool.eq_false_iff.mpr fun hx => h (mem_delimiters_of_endsElements hx)⟩

theorem Starts.append {cs : List Char} (h : Starts cs) (ds : List Char) : Starts (cs ++ ds) := by
  obtain ⟨x, rest, rfl, hx⟩ := h
  exact ⟨x, rest ++ ds, rfl, hx⟩

theorem Starts.stopsAt {cs : List Char} (h : Starts cs) : StopsAt isBlank cs := by
  obtain ⟨x, rest, rfl, hblank, -⟩ := h
  exact stopsAt_cons hblank

theorem Starts.sees {cs : List Char} (h : Starts cs) {c : Cursor} (hc : c.rest = cs) {x : Char}
    (hx : endsElements x = true) : c.sees x = false := by
  obtain ⟨y, rest, rfl, -, hends⟩ := h
  rw [Cursor.sees, Cursor.peek?, hc]
  refine decide_eq_false fun heq => ?_
  cases heq
  rw [hx] at hends
  cases hends

/-- The text is empty or starts with what ends a list of elements. -/
def EndsList (more : List Char) : Prop := ∀ x ∈ more.head?, endsElements x = true

theorem endsList_cons {x : Char} (h : endsElements x = true) (more : List Char) :
    EndsList (x :: more) := by
  rintro y hy
  cases hy
  exact h

theorem EndsList.delimited {more : List Char} (h : EndsList more) : Delimited more :=
  fun x hx => mem_delimiters_of_endsElements (h x hx)

private theorem isBlank_of_endsElements {x : Char} (h : endsElements x = true) :
    isBlank x = false := by
  simp only [endsElements, Bool.or_eq_true, decide_eq_true_eq] at h
  rcases h with ((rfl | rfl) | rfl) | rfl <;> rfl

theorem EndsList.stopsAt {more : List Char} (h : EndsList more) : StopsAt isBlank more :=
  fun x hx => isBlank_of_endsElements (h x hx)

/-- No element is found where a list ends. -/
theorem EndsList.stops {more : List Char} (h : EndsList more) (level : Level) :
    Stops Reader.text (readElement level) more := by
  intro r hr
  have hskip : r.skipBlanks.cursor.rest = more := Cursor.rest_skipBlanks h.stopsAt hr
  unfold readElement
  simp only [Cursor.peek?, hskip]
  cases more with
  | nil => rfl
  | cons x more => simp [h x rfl]

theorem Finds.blanks {level : Level} {cs more blanks : List Char} {Q : Node → Prop}
    (h : Finds Reader.text (readElement level) cs more Q) (hblanks : Blank blanks) :
    Finds Reader.text (readElement level) (blanks ++ cs) more Q := by
  intro r hr
  obtain ⟨⟨_, offset⟩, k⟩ := r
  subst hr
  rw [readElement_blanks level hblanks]
  exact h _ rfl

/-! ## Blocks -/

/-- An item of a block is read back. -/
structure Node.ItemReadsBack (n : Node) : Prop where
  start : Starts n.itemText.toList
  finds (limit : Nat) {room : Nat} {more : List Char} : n.itemLevels ≤ room → Delimited more →
    Finds Reader.text (readElement (levelAt limit room)) (n.itemText.toList ++ more) more
      (·.unmarked = n.written)

/-- What stands in a block is read back. -/
structure Node.ContentsReadBack (n : Node) : Prop where
  start : Starts n.render.toList
  gets (limit : Nat) {room : Nat} {blanks more : List Char} : n.levels ≤ room →
    Blank blanks → EndsList more →
    Gets Reader.text (readElements limit room) (blanks ++ (n.render.toList ++ more)) more
      fun items => items ≠ [] ∧ Node.block default (items.map Node.unmarked) = n.written

theorem contentsReadBack_block {mark : Mark} {items : List Node} (hne : items ≠ [])
    (h : ∀ n ∈ items, n.ItemReadsBack) : (Node.block mark items).ContentsReadBack := by
  obtain ⟨first, rest, rfl⟩ := List.exists_cons_of_ne_nil hne
  obtain ⟨hfirst, hrest⟩ := List.forall_mem_cons.mp h
  refine ⟨?_, fun limit room blanks more hlevels hblanks hmore => ?_⟩
  · rw [Node.toList_render_block]
    exact hfirst.start.append _
  · rw [Node.levels, Node.levelsOfItems_le, List.forall_mem_cons] at hlevels
    have hothers : Gets Reader.text (many Reader.size (readElement (levelAt limit room)))
        (rest.flatMap (fun n => ' ' :: n.itemText.toList) ++ more) more
        (List.Forall₂ (fun n' n => n'.unmarked = n.written) · rest) :=
      gets_many_flatMap (fun _ => rfl) (by simp) (fun _ _ _ => .cons (by decide) _)
        (fun n hn more hmore => ((hrest n hn).finds limit (hlevels.2 n hn) hmore).blanks
          blank_space) hmore.delimited
        (hmore.stops _)
    have hdelimited : Delimited (rest.flatMap (fun n => ' ' :: n.itemText.toList) ++ more) := by
      cases rest with
      | nil => exact hmore.delimited
      | cons n rest => exact .cons (by decide) _
    rw [readElements_eq, Node.toList_render_block, List.append_assoc]
    have hlt : (rest.flatMap (fun n => ' ' :: n.itemText.toList) ++ more).length <
        (blanks ++
          (first.itemText.toList ++
            (rest.flatMap (fun n => ' ' :: n.itemText.toList) ++ more))).length := by
      obtain ⟨x, cs, hstart, -⟩ := hfirst.start
      rw [hstart]
      simp only [List.length_append, List.length_cons]
      omega
    refine (((hfirst.finds limit hlevels.1 hdelimited).blanks hblanks).many (fun _ => rfl) hlt
      hothers).mono ?_
    rintro _ ⟨n', rest', rfl, hn', hrest'⟩
    refine ⟨List.cons_ne_nil _ _, ?_⟩
    rw [Node.written, Node.writtenAll_eq_map, List.map_cons, List.map_cons, hn',
      map_eq_map_iff_forall₂.mpr hrest']

/-- A block in parentheses is read back, if what stands in it is. -/
theorem Node.ContentsReadBack.item {n : Node} (hblock : n.isBlock = true) (h : n.ContentsReadBack) :
    n.ItemReadsBack := by
  refine ⟨?_, fun limit room more hroom hmore r hr => ?_⟩
  · rw [Node.itemText_of_isBlock hblock]
    exact starts_of_not_mem (by decide) _
  · rw [Node.itemLevels_of_isBlock hblock] at hroom
    rw [Node.itemText_of_isBlock hblock, List.cons_append, List.append_assoc,
      List.singleton_append] at hr
    cases room with
    | zero => omega
    | succ room =>
      obtain ⟨items, r₁, hread, hr₁, hne, hitems⟩ := h.gets limit (Nat.le_of_succ_le_succ hroom)
        (List.forall_mem_nil _) (endsList_cons rfl more) r.next (Cursor.rest_next hr)
      have hclose : r₁.skipBlanks.cursor.rest = ')' :: more :=
        Cursor.rest_skipBlanks (stopsAt_cons rfl) hr₁
      have hempty : items.isEmpty = false := by simpa using hne
      refine ⟨.block (r₁.skipBlanks.mark r.cursor.offset) items,
        r₁.skipBlanks.made r₁.skipBlanks.next.cursor, ?_, Cursor.rest_next hclose, ?_⟩
      · obtain ⟨⟨_, offset⟩, k⟩ := r
        subst hr
        rw [readElement_start _ (by decide)]
        simp only [readElementAt, if_true, readParentheses, levelAt, hread, bind,
          Except.bind, Reader.sees, Cursor.sees_cons hclose, hempty]
        rfl
      · simp only [Node.unmarked, Node.unmarkedAll_eq_map, hitems]

/-! ## Arguments -/

section

variable {room : Nat} {args : List Node} {more : List Char}

theorem Node.ContentsReadBack.readArgument {n : Node} (h : n.ContentsReadBack) (limit : Nat)
    (hroom : n.levels ≤ room) {blanks : List Char} (hblanks : Blank blanks)
    (hmore : EndsList more) :
    Gets Reader.text (readArgument (readElements limit room))
      (blanks ++ (n.render.toList ++ more)) more (·.unmarked = n.written) := by
  intro r hr
  obtain ⟨items, r', hread, hr', hne, hitems⟩ := h.gets limit hroom hblanks hmore r hr
  refine ⟨.block (r'.mark r.cursor.offset) items, r'.made r'.cursor, ?_, hr', ?_⟩
  · have hempty : items.isEmpty = false := by simpa using hne
    simp only [Formula.readArgument, hread, bind, Except.bind, hempty]
    rfl
  · simp only [Node.unmarked, Node.unmarkedAll_eq_map, hitems]

theorem Node.ContentsReadBack.readNextArgument {n : Node} (h : n.ContentsReadBack) (limit : Nat)
    (hroom : n.levels ≤ room) (hmore : EndsList more) :
    Finds Reader.text (readNextArgument (readElements limit room))
      (',' :: ' ' :: n.render.toList ++ more) more (·.unmarked = n.written) := by
  intro r hr
  have hskip : r.skipBlanks.cursor.rest = _ := Cursor.rest_skipBlanks (stopsAt_cons rfl) hr
  obtain ⟨n', r', hread, hr', hn'⟩ :=
    h.readArgument limit hroom blank_space hmore r.skipBlanks.next (Cursor.rest_next hskip)
  refine ⟨n', r', ?_, hr', hn'⟩
  rw [Formula.readNextArgument, Reader.sees, Cursor.sees_cons hskip, hread]
  rfl

theorem Reader.rest_skipBlanks {close : Char} (hclose : endsElements close = true)
    {more : List Char} {r : Reader} (hr : r.text = close :: more) :
    r.skipBlanks.cursor.rest = close :: more :=
  Cursor.rest_skipBlanks (endsList_cons hclose more).stopsAt hr

/-- The arguments behind the first one are read back. -/
theorem readNextArguments_gets (h : ∀ n ∈ args, n.ContentsReadBack) (limit : Nat)
    (hroom : ∀ n ∈ args, n.levels ≤ room) {close : Char} (hclose : endsElements close = true)
    (hcomma : close ≠ ',') (more : List Char) :
    Gets Reader.text (many Reader.size (readNextArgument (readElements limit room)))
      (args.flatMap (fun n => ',' :: ' ' :: n.render.toList) ++ close :: more) (close :: more)
      (List.Forall₂ (fun n' n => n'.unmarked = n.written) · args) := by
  refine gets_many_flatMap (fun _ => rfl) (by simp) (fun _ _ _ => endsList_cons rfl _)
    (fun n hn more => (h n hn).readNextArgument limit (hroom n hn)) (endsList_cons hclose more)
    fun r hr => ?_
  rw [readNextArgument, Reader.sees, Cursor.sees_cons (Reader.rest_skipBlanks hclose hr),
    decide_eq_false hcomma]
  rfl

/-- A list of arguments is read back, up to the bracket that closes it. -/
theorem readArguments_gets (h : ∀ n ∈ args, n.ContentsReadBack) (limit : Nat)
    (hroom : Node.levelsOfArgs args < room) {close : Char} (hclose : endsElements close = true)
    (hcomma : close ≠ ',') (more : List Char) :
    Gets Reader.text (readArguments (levelAt limit room) close)
      ((Node.argsText args).toList ++ close :: more) more
      (fun as => as.map Node.unmarked = args.map Node.written) := by
  cases room with
  | zero => omega
  | succ room =>
    intro r hr
    cases args with
    | nil =>
      have hskip := Reader.rest_skipBlanks hclose hr
      refine ⟨[], r.skipBlanks.next, ?_, Cursor.rest_next hskip, rfl⟩
      simp only [readArguments, levelAt, bind, Except.bind, Reader.sees, Cursor.sees_cons hskip,
        decide_true, if_true]
    | cons first rest =>
      obtain ⟨hfirst, hrest⟩ := List.forall_mem_cons.mp h
      have hlevels := Node.levelsOfArgs_le.mp (Nat.le_of_lt_succ hroom)
      rw [List.forall_mem_cons] at hlevels
      have hends :
          EndsList (rest.flatMap (fun n => ',' :: ' ' :: n.render.toList) ++ close :: more) := by
        cases rest with
        | nil => exact endsList_cons hclose more
        | cons n rest => exact endsList_cons rfl _
      rw [Node.toList_argsText_cons, List.append_assoc] at hr
      have hstart :=
        hfirst.start.append (rest.flatMap (fun n => ',' :: ' ' :: n.render.toList) ++ close :: more)
      have hskip : r.skipBlanks.cursor.rest = _ := Cursor.rest_skipBlanks hstart.stopsAt hr
      have hsees : r.skipBlanks.cursor.sees close = false := hstart.sees hskip hclose
      obtain ⟨n', r₁, hread₁, hr₁, hn'⟩ :=
        hfirst.readArgument limit hlevels.1 (List.forall_mem_nil _) hends r.skipBlanks hskip
      obtain ⟨rest', r₂, hread₂, hr₂, hrest'⟩ :=
        readNextArguments_gets hrest limit hlevels.2 hclose hcomma more r₁ hr₁
      have hskip₂ := Reader.rest_skipBlanks hclose hr₂
      refine ⟨n' :: rest', r₂.skipBlanks.next, ?_, Cursor.rest_next hskip₂, ?_⟩
      · simp only [readArguments, levelAt, bind, Except.bind, Reader.sees, hsees, hread₁, hread₂,
          Cursor.sees_cons hskip₂, decide_true, if_true]
        rfl
      · simp only [List.map_cons, hn', map_eq_map_iff_forall₂.mpr hrest']

end

/-! ## Routes -/

/-- The segment is written as names and blocks, and its arguments are read back. -/
structure Segment.ReadsBack (s : Segment Node) : Prop extends s.Spelled where
  readBack : ∀ n ∈ s.args, n.ContentsReadBack

/-- What may stand behind a segment: a further segment, or what ends an element. -/
def Continues (more : List Char) : Prop := ∀ x ∈ more.head?, x = '.' ∨ x = '[' ∨ x ∈ delimiters

theorem Delimited.continues {more : List Char} (h : Delimited more) : Continues more :=
  fun x hx => .inr (.inr (h x hx))

theorem Continues.stopsAt {more : List Char} (h : Continues more) {p : Char → Bool}
    (hdot : p '.' = false) (hopen : p '[' = false) (hdelimiters : delimiters.any p = false) :
    StopsAt p more := by
  intro x hx
  rcases h x hx with rfl | rfl | hx
  · exact hdot
  · exact hopen
  · exact Bool.eq_false_iff.mpr (List.any_eq_false.mp hdelimiters x hx)

theorem sees_of_stopsAt {c : Cursor} {cs : List Char} (hc : c.rest = cs) {x : Char}
    (h : StopsAt (· = x) cs) :
    c.sees x = false := by
  rw [Cursor.sees, Cursor.peek?, hc]
  refine decide_eq_false fun heq => ?_
  simpa using h x heq

/-- Type arguments are read back where a name ends, if there are any. -/
theorem typeArguments?_gets {generics : List TypeName} (h : ∀ t ∈ generics, t.Spelled) {room : Nat}
    (hroom : TypeName.nestingAll generics ≤ room) (limit : Nat) {more : List Char}
    (hmore : StopsAt (· = '<') more) :
    Gets Cursor.rest (typeArguments? limit room)
      ((TypeName.argumentText generics).toList ++ more) more (·.getD [] = generics) := by
  cases generics with
  | nil =>
    intro c hc
    refine ⟨none, c, ?_, hc, rfl⟩
    rw [typeArguments?, sees_of_stopsAt hc hmore]
    rfl
  | cons t generics =>
    refine (TypeName.typeArguments?_text (List.cons_ne_nil _ _) h hroom limit more).mono ?_
    rintro _ rfl
    rfl

section

variable {s : Segment Node} {limit room : Nat} {more : List Char}

/-- A name with its type arguments and its arguments is read back. -/
theorem Segment.ReadsBack.readNamed (h : s.ReadsBack) (hnamed : s.isIndexer = false) (limit : Nat)
    (hroom : Node.segmentLevels s ≤ room) (hmore : Continues more) :
    Gets Reader.text (readNamed (levelAt limit room)) ((Node.segmentText s).toList ++ more) more
      (·.unmarked Node.unmarked = s.unmarked Node.written) := by
  intro r hr
  cases s with
  | indexer => cases hnamed
  | member mark name generics =>
    have hname : IsName name.toList := h.name name rfl
    rw [Node.segmentText, String.toList_append, List.append_assoc] at hr
    obtain ⟨c₁, hspan, hc₁⟩ := hname.span
      (TypeName.stopsAt_argumentText rfl generics (hmore.stopsAt rfl rfl rfl)) hr
    obtain ⟨found, c₂, hgenerics, hc₂, hfound⟩ :=
      typeArguments?_gets h.generics hroom limit (hmore.stopsAt rfl rfl rfl) c₁ hc₁
    have hsees : c₂.sees '(' = false := sees_of_stopsAt hc₂ (hmore.stopsAt rfl rfl rfl)
    refine ⟨.member ⟨r.nodes, r.cursor.offset⟩ name generics, ⟨c₂, r.nodes + 1⟩, ?_, hc₂, rfl⟩
    simp only [Formula.readNamed, hspan, levelAt_typeArguments, hgenerics, bind, Except.bind,
      Reader.sees, hsees, hfound, String.ofList_toList]
    rfl
  | method mark name generics args =>
    have hname : IsName name.toList := h.name name rfl
    have hgenerics : ∀ t ∈ generics, t.Spelled := h.generics
    have hargs : ∀ n ∈ args, n.ContentsReadBack := h.readBack
    obtain ⟨hgenericsRoom, hargsRoom⟩ := Nat.max_le.mp hroom
    have hopen : ∀ {p : Char → Bool}, p '(' = false →
        StopsAt p ('(' :: ((Node.argsText args).toList ++ ')' :: more)) :=
      fun hp => stopsAt_cons hp
    have htext :
        (Node.segmentText (.method mark name generics args)).toList ++ more = name.toList ++
        ((TypeName.argumentText generics).toList ++
          ('(' :: ((Node.argsText args).toList ++ ')' :: more))) := by
      simp [Node.segmentText]
    obtain ⟨c₁, hspan, hc₁⟩ :=
      hname.span (TypeName.stopsAt_argumentText rfl generics (hopen rfl)) (hr.trans htext)
    obtain ⟨found, c₂, hfind, hc₂, hfound⟩ :=
      typeArguments?_gets hgenerics hgenericsRoom limit (hopen rfl) c₁ hc₁
    obtain ⟨args', r', hread, hr', hargs'⟩ := readArguments_gets hargs limit hargsRoom
      (show endsElements ')' = true from rfl) (by decide) more ⟨c₂.next, r.nodes⟩
      (Cursor.rest_next hc₂)
    refine ⟨.method (r'.mark r.cursor.offset) name generics args', r'.made r'.cursor, ?_, hr', ?_⟩
    · simp only [Formula.readNamed, hspan, levelAt_typeArguments, hfind, bind,
        Except.bind, Reader.sees, Cursor.sees_cons hc₂, decide_true, if_true, Reader.next, hread,
        hfound, String.ofList_toList]
    · simp only [Segment.unmarked, hargs']

theorem Segment.ReadsBack.readIndexer (h : s.ReadsBack) (hindexer : s.isIndexer = true)
    (limit : Nat) (hroom : Node.segmentLevels s ≤ room) (more : List Char) :
    Finds Reader.text (readIndexer (levelAt limit room)) ((Node.segmentText s).toList ++ more) more
      (·.unmarked Node.unmarked = s.unmarked Node.written) := by
  intro r hr
  cases s with
  | member | method => cases hindexer
  | indexer mark args =>
    have htext : (Node.segmentText (.indexer mark args)).toList ++ more =
        '[' :: ((Node.argsText args).toList ++ ']' :: more) := by
      simp [Node.segmentText]
    have hopen : r.cursor.rest = _ := hr.trans htext
    obtain ⟨args', r', hargs, hr', hargs'⟩ := readArguments_gets h.readBack limit hroom
      (show endsElements ']' = true from rfl) (by decide) more r.next (Cursor.rest_next hopen)
    have hempty : args'.isEmpty = false := by
      have hne : args ≠ [] := h.indexer rfl
      cases args' with
      | nil => exact absurd (List.map_eq_nil_iff.mp hargs'.symm) hne
      | cons => rfl
    refine ⟨.indexer (r'.mark r.cursor.offset) args', r'.made r'.cursor, ?_, hr', ?_⟩
    · simp only [Formula.readIndexer, Reader.sees, Cursor.sees_cons hopen, decide_true,
        if_true, hargs, bind, Except.bind, hempty]
      rfl
    · simp only [Segment.unmarked, hargs']
      rfl

theorem toList_segmentText (hnamed : s.isIndexer = false) :
    ∃ name ∈ s.name?, ∃ more, (Node.segmentText s).toList = name.toList ++ more := by
  cases s with
  | indexer => cases hnamed
  | member mark name generics => exact ⟨name, rfl, _, String.toList_append⟩
  | method mark name generics args =>
    refine ⟨name, rfl,
      (TypeName.argumentText generics ++ "(" ++ Node.argsText args ++ ")").toList, ?_⟩
    simp only [Node.segmentText, String.toList_append, List.append_assoc]

theorem Segment.ReadsBack.start (h : s.ReadsBack) (hnamed : s.isIndexer = false) :
    ∃ x cs, (Node.segmentText s).toList = x :: cs ∧ isNameStart x = true := by
  obtain ⟨name, hname, more, htext⟩ := toList_segmentText hnamed
  obtain ⟨x, cs, hstart, hx⟩ := (h.name name hname).start
  exact ⟨x, cs ++ more, by rw [htext, hstart, List.cons_append], hx⟩

end

theorem continues_furtherText (s : Segment Node) (more : List Char) :
    Continues (Node.furtherText s ++ more) := by
  intro x hx
  cases s with
  | member | method =>
    cases hx
    exact .inl rfl
  | indexer mark args =>
    simp only [Node.furtherText, Segment.isIndexer, if_true, Node.segmentText,
      String.toList_append] at hx
    cases hx
    exact .inr (.inl rfl)

theorem continues_flatMap (segments : List (Segment Node)) {more : List Char}
    (hmore : Delimited more) :
    Continues (segments.flatMap Node.furtherText ++ more) := by
  cases segments with
  | nil => exact hmore.continues
  | cons s segments =>
    rw [List.flatMap_cons, List.append_assoc]
    exact continues_furtherText s _

/-- What stands behind the first name of a route is read as indexers, and then as names with
theirs. -/
theorem readFurther_gets {segments : List (Segment Node)} (h : ∀ s ∈ segments, s.ReadsBack)
    {room : Nat} (limit : Nat) (hroom : ∀ s ∈ segments, Node.segmentLevels s ≤ room)
    {more : List Char} (hmore : Delimited more) {r : Reader}
    (hr : r.text = segments.flatMap Node.furtherText ++ more) :
    ∃ indexers s names t, many Reader.size (readIndexer (levelAt limit room)) r =
      .ok (indexers, s) ∧
      many Reader.size (readNextSegments (levelAt limit room)) s = .ok (names, t) ∧ t.text = more ∧
      (indexers ++ names.flatten).map (Segment.unmarked Node.unmarked) =
        segments.map (Segment.unmarked Node.written) := by
  induction segments generalizing r with
  | nil =>
    have hopen : r.sees '[' = false := sees_of_stopsAt hr (hmore.stopsAt rfl)
    have hdot : r.cursor.seesDotName = false := by
      obtain ⟨⟨_, offset⟩, k⟩ := r
      subst hr
      exact hmore.seesDotName offset
    exact ⟨[], r, [], r, many_of_none (readIndexer_eq_none hopen),
      many_of_none (readNextSegments_eq_none hdot), hr, rfl⟩
  | cons s segments ih =>
    obtain ⟨hs, hrest⟩ := List.forall_mem_cons.mp h
    obtain ⟨hlevels, hlevelsRest⟩ := List.forall_mem_cons.mp hroom
    have hforward := levelAt_forward limit room
    rw [List.flatMap_cons, List.append_assoc] at hr
    cases hindexer : s.isIndexer with
    | true =>
      rw [Node.furtherText, if_pos hindexer] at hr
      obtain ⟨s', r₁, hstep, hr₁, hs'⟩ := hs.readIndexer hindexer limit hlevels _ r hr
      obtain ⟨indexers, r₂, names, t, hindexers, hnames, ht, hall⟩ := ih hrest hlevelsRest hr₁
      refine ⟨s' :: indexers, r₂, names, t, hforward.readIndexer.many_cons hstep hindexers,
        hnames, ht, ?_⟩
      rw [List.cons_append, List.map_cons, List.map_cons, hs', hall]
    | false =>
      rw [Node.furtherText, hindexer, if_neg Bool.false_ne_true, List.cons_append] at hr
      obtain ⟨s', r₁, hstep, hr₁, hs'⟩ :=
        hs.readNamed hindexer limit hlevels (continues_flatMap segments hmore) r.next
          (Cursor.rest_next hr)
      -- the indexers that are read next belong to this name
      obtain ⟨indexers, r₂, names, t, hindexers, hnames, ht, hall⟩ := ih hrest hlevelsRest hr₁
      have hopen : r.sees '[' = false := Cursor.sees_cons hr '['
      have hdot : r.cursor.seesDotName = true := by
        obtain ⟨x, cs, hstart, hx⟩ := hs.start hindexer
        have hrest : r.cursor.rest = _ := hr
        simp [Cursor.seesDotName, hrest, hstart, hx]
      have hsegments :
          readNextSegments (levelAt limit room) r = .ok (some (s' :: indexers, r₂)) := by
        rw [readNextSegments, if_pos hdot]
        simp only [readSegments, hstep, hindexers, bind, Except.bind, Except.map]
      refine ⟨[], r, (s' :: indexers) :: names, t, many_of_none (readIndexer_eq_none hopen),
        hforward.readNextSegments.many_cons hsegments hnames, ht, ?_⟩
      rw [List.nil_append, List.flatten_cons, List.cons_append, List.map_cons,
        List.map_cons, hs', hall]

/-- A route is read back, if its segments are. -/
theorem itemReadsBack_route {mark : Mark} {head : RouteHead} {first : Segment Node}
    {rest : List (Segment Node)} (hnamed : first.isIndexer = false)
    (h : ∀ s ∈ first :: rest, s.ReadsBack) :
    (Node.route mark head (first :: rest)).ItemReadsBack := by
  obtain ⟨hfirst, hrest⟩ := List.forall_mem_cons.mp h
  obtain ⟨x, cs, hstart, hx⟩ := hfirst.start hnamed
  have htext : (Node.route mark head (first :: rest)).itemText.toList =
      (Node.segmentText first).toList ++ rest.flatMap Node.furtherText :=
    Node.toList_render_route mark head first rest
  refine ⟨?_, fun limit room more hroom hmore r hr => ?_⟩
  · rw [htext, hstart]
    exact starts_of_not_mem (not_mem_delimiters (p := isNameStart) rfl hx) _
  · have hlevels :=
      Node.levelsOfSegments_le.mp (show Node.levelsOfSegments (first :: rest) ≤ room from hroom)
    obtain ⟨hlevelsFirst, hlevelsRest⟩ := List.forall_mem_cons.mp hlevels
    rw [htext, List.append_assoc] at hr
    obtain ⟨first', r₁, hnamed', hr₁, hfirst'⟩ :=
      hfirst.readNamed hnamed limit hlevelsFirst (continues_flatMap rest hmore) r hr
    obtain ⟨indexers, r₂, names, r₃, hindexers, hnames, hr₃, hrest'⟩ :=
      readFurther_gets hrest limit hlevelsRest hmore hr₁
    have hroute : readRoute (levelAt limit room) r = .ok
        (.route (r₃.mark r.cursor.offset) .scope (first' :: indexers ++ names.flatten),
          r₃.made r₃.cursor) := by
      simp only [readRoute, readSegments, hnamed', hindexers, hnames, bind, Except.bind]
    refine ⟨.route (r₃.mark r.cursor.offset) .scope (first' :: indexers ++ names.flatten),
      r₃.made r₃.cursor, ?_, hr₃, ?_⟩
    · obtain ⟨⟨_, offset⟩, k⟩ := r
      subst hr
      rw [hstart] at hroute ⊢
      rw [List.cons_append, readElement_nameStart offset k _ hx]
      exact congrArg (Except.map some) hroute
    · rw [Node.written, Node.writtenSegments_eq_map, List.map_cons, ← hfirst', ← hrest']
      simp only [Node.unmarked, Node.unmarkedSegments_eq_map, List.cons_append, List.map_cons]

/-! ## Trees -/

theorem itemReadsBack_constant {mark : Mark} {n : Nat} (hn : n < 2 ^ 31) :
    (Node.constant mark (.ofInt .i32 n)).ItemReadsBack := by
  have hholds := IntKind.i32_holds hn
  have hnumeral := isNumeral_render hholds
  refine ⟨?_, fun limit room more _ hmore r hr => ?_⟩
  · obtain ⟨x, cs, hstart, hx⟩ := hnumeral.start
    show Starts (Value.ofInt .i32 n).render.toList
    rw [hstart]
    exact starts_of_not_mem (not_mem_delimiters (p := Char.isDigit) rfl hx) _
  · obtain ⟨⟨_, offset⟩, k⟩ := r
    subst hr
    exact ⟨_, _, readElement_numeral _ hnumeral hmore hholds offset k, rfl, rfl⟩

theorem itemReadsBack_operator {mark : Mark} {op : Operator} :
    (Node.operator mark op).ItemReadsBack := by
  have htext : (Node.operator mark op).itemText.toList = [op.symbol] := by
    show op.symbol.toString.toList = _
    simp
  refine ⟨?_, fun limit room more _ _ r hr => ?_⟩
  · refine ⟨op.symbol, [], htext, ?_⟩
    rcases op with (_ | _ | _ | _ | _ | _) | _ <;> exact ⟨rfl, rfl⟩
  · obtain ⟨⟨_, offset⟩, k⟩ := r
    rw [htext] at hr
    subst hr
    exact ⟨_, _, readElement_operator _ op.ofChar?_symbol more offset k, rfl, rfl⟩

/-- A node of a plain and spelled tree is read back as an item, and as a block if it is one. -/
theorem Node.readsBack (n : Node) (hplain : ∀ e ∈ n.elements, e.isPlain = true)
    (hspelled : ∀ e ∈ n.elements, e.IsSpelled) :
    n.ItemReadsBack ∧ (n.isBlock = true → n.ContentsReadBack) := by
  induction n using Node.induct with
  | constant mark v =>
    obtain ⟨n, hn, rfl⟩ := Value.isNatural_iff.mp (hplain _ (elements_self _))
    exact ⟨itemReadsBack_constant hn, fun h => by cases h⟩
  | operator mark op => exact ⟨itemReadsBack_operator, fun h => by cases h⟩
  | unresolved | cast => cases hplain _ (elements_self _)
  | route mark head segments ih =>
    obtain ⟨⟨⟨first, rest, rfl, hnamed⟩, -⟩, hsegments⟩ := forall_elements_route.mp hspelled
    -- arguments are blocks without parentheses of their own
    refine ⟨itemReadsBack_route hnamed fun s hs => ⟨(hsegments s hs).1, fun n hn => ?_⟩,
      fun h => by cases h⟩
    refine (ih s hs n hn ?_ ((hsegments s hs).2 n hn)).2 ((hsegments s hs).1.args n hn)
    exact ((forall_elements_route.mp hplain).2 s hs).2 n hn
  | block mark items ih =>
    obtain ⟨hne, hitems⟩ := forall_elements_block.mp hspelled
    have hcontents : (Node.block mark items).ContentsReadBack :=
      contentsReadBack_block hne fun n hn =>
      (ih n hn ((forall_elements_block.mp hplain).2 n hn) (hitems n hn)).1
    exact ⟨hcontents.item rfl, fun _ => hcontents⟩

/-- **The text of a tree is read back as the tree it shows.** -/
theorem Node.ofSource_render {n : Node} (hblock : n.isBlock = true)
    (hplain : ∀ e ∈ n.elements, e.isPlain = true) (hspelled : ∀ e ∈ n.elements, e.IsSpelled)
    {limit : Nat} (hlevels : n.levels ≤ limit) :
    ∃ q nodes, Node.ofSource limit n.render = .ok (q, nodes) ∧ q.unmarked = n.written := by
  have hcontents := (n.readsBack hplain hspelled).2 hblock
  have hnothing : EndsList [] := fun x hx => by cases hx
  obtain ⟨items, r, hread, hr, hne, hitems⟩ :=
    hcontents.gets limit hlevels (List.forall_mem_nil _) hnothing
    ⟨.start n.render, 0⟩ (List.append_nil _).symm
  have hend : r.skipBlanks.cursor.peek? = none := by
    have hrest : r.skipBlanks.cursor.rest = [] := Cursor.rest_skipBlanks (by simp [StopsAt]) hr
    rw [Cursor.peek?, hrest, List.head?_nil]
  refine ⟨.block (r.skipBlanks.mark 0) items, r.nodes + 1, ?_, ?_⟩
  · exact Node.ofSource_ok_iff.mpr ⟨items, r, hread, hend, hne, rfl, rfl⟩
  · rw [Node.unmarked, Node.unmarkedAll_eq_map, hitems]

end Formula
