import Formula.Proofs.Loosening
import Formula.Proofs.Marks

/-!
# Reading within a longer text

What is read from a text is read in the same way when the text stands further on, and when a bar
follows it: no token goes on over a bar, and no list of type arguments does. So each reader finds
the same on the longer text, up to marks, and stops before the bar (`Cursor.Framed`). Only lists of
elements go on over it, and those that are closed by a bracket have met it before.

`Node.ofSource_bars`: a text between bars is read as its elements between two bars.
-/

namespace Formula

/-! ## Cursors -/

/-- The cursor `c'` has the text of `c` before it, then a bar, and then `more`. -/
def Cursor.Framed (more : List Char) (c c' : Cursor) : Prop := c'.rest = c.rest ++ '|' :: more

/-- The same result, with cursors before the same text. -/
abbrev FramedResult (more : List Char) {α : Type} (x y : α × Cursor) : Prop :=
  y.1 = x.1 ∧ x.2.Framed more y.2

namespace Cursor.Framed

variable {more : List Char} {c c' : Cursor} (h : c.Framed more c')

include h

theorem span {p : Char → Bool} (hp : p '|' = false) : FramedResult more (c.span p) (c'.span p) := by
  have hstop : StopsAt p (c.rest.dropWhile p ++ '|' :: more) := by
    cases hrest : c.rest.dropWhile p with
    | nil => exact stopsAt_cons hp
    | cons x rest => exact fun y hy => stopsAt_dropWhile p c.rest y (hrest ▸ hy)
  have hrest : c'.rest = c.rest.takeWhile p ++ (c.rest.dropWhile p ++ '|' :: more) := by
    rw [h, ← List.append_assoc, List.takeWhile_append_dropWhile]
  constructor
  · show c'.rest.takeWhile p = c.rest.takeWhile p
    rw [hrest, hstop.takeWhile all_takeWhile]
  · show c'.rest.dropWhile p = c.rest.dropWhile p ++ '|' :: more
    rw [hrest, hstop.dropWhile all_takeWhile]

theorem skipBlanks : c.skipBlanks.Framed more c'.skipBlanks := (h.span rfl).2

theorem peek? {x : Char} (hc : c.peek? = some x) : c'.peek? = some x := by
  rw [Cursor.peek?, h, List.head?_append]
  rw [Cursor.peek?] at hc
  rw [hc]
  rfl

theorem sees_eq {x : Char} (hx : x ≠ '|') : c'.sees x = c.sees x := by
  unfold Cursor.sees Cursor.peek?
  rw [h, List.head?_append]
  cases c.rest with
  | nil => simpa using Ne.symm hx
  | cons y rest => rfl

theorem next {x : Char} (hc : c.peek? = some x) : c.next.Framed more c'.next := by
  obtain ⟨rest, offset⟩ := c
  obtain ⟨rest', offset'⟩ := c'
  cases rest with
  | nil => cases hc
  | cons y rest =>
    have h : rest' = y :: rest ++ '|' :: more := h
    subst h
    rfl

theorem next_of_sees {x : Char} (hc : c.sees x = true) : c.next.Framed more c'.next :=
  h.next (peek?_of_sees hc)

theorem seesDotName_eq : c'.seesDotName = c.seesDotName := by
  unfold Cursor.seesDotName
  rw [h]
  rcases c.rest with _ | ⟨dot, _ | ⟨x, rest⟩⟩
  · cases more <;> rfl
  · simp [show isNameStart '|' = false from rfl]
  · rfl

theorem name? : Option.Rel (FramedResult more) c.name? c'.name? := by
  unfold Cursor.name?
  cases hc : c.peek? with
  | none =>
    have hbar : c'.peek? = some '|' := by
      rw [Cursor.peek?, List.head?_eq_none_iff] at hc
      rw [Cursor.peek?, h, hc]
      rfl
    rw [hbar]
    exact .none
  | some x =>
    rw [h.peek? hc]
    simp only
    split
    · obtain ⟨hname, hafter⟩ := h.span (p := isNameChar) rfl
      exact .some ⟨by rw [hname], hafter⟩
    · exact .none

theorem length_eq : c'.rest.length = c.rest.length + (more.length + 1) := by
  rw [h, List.length_append]
  rfl

end Cursor.Framed

theorem Cursor.alike_framed (more : List Char) : Cursor.Alike (Cursor.Framed more) where
  skipBlanks h := h.skipBlanks
  sees_eq h hx := h.sees_eq fun hbar => absurd (hbar ▸ hx) (by decide)
  next_of_sees h _ hc := h.next_of_sees hc
  seesDotName_eq h := h.seesDotName_eq
  next_of_seesDotName h hdot := by
    obtain ⟨x, hx⟩ := Cursor.peek?_of_seesDotName hdot
    exact h.next hx
  name? h := h.name?
  length_lt_iff h h' := by
    rw [h.length_eq, h'.length_eq]
    omega

/-! ## Literals -/

section

variable {more : List Char} {c c' : Cursor}

theorem readString_framed {d : Cursor} {v : Value} (hc : c.sees '"' = true)
    (hd : readString c = .ok (v, d)) (h : c.Framed more c') :
    ∃ d', readString c' = .ok (v, d') ∧ d.Framed more d' := by
  obtain ⟨used, hused, hfound⟩ := readString_found hc hd
  exact hfound (d.rest ++ '|' :: more) c' (by rw [h, hused, List.append_assoc])

theorem readNumber_framed (hc : c.rest ≠ []) (h : c.Framed more c') :
    FramedResult more (readNumber c) (readNumber c') := by
  obtain ⟨raw, hraw, hread⟩ := readNumber_trails hc
  refine hread c' _ (trails_bar _ more) ?_
  rw [h, ← List.append_assoc, ← hraw]

theorem readStray_framed (hc : c.rest ≠ []) (h : c.Framed more c') :
    FramedResult more (readStray c) (readStray c') := by
  obtain ⟨used, hused, hread⟩ := readStray_trails hc
  refine hread c' _ (trails_bar _ more) ?_
  rw [h, ← List.append_assoc, ← hused]

end

/-! ## Readers -/

/-- The readers stand before the same text, the second one with a bar and `more` behind it. -/
def Reader.Framed (more : List Char) (r r' : Reader) : Prop := r.cursor.Framed more r'.cursor

namespace Reader.Framed

variable {more : List Char} {r r' : Reader} (h : r.Framed more r')

include h

theorem skipBlanks : r.skipBlanks.Framed more r'.skipBlanks := Cursor.Framed.skipBlanks h

theorem sees_eq {x : Char} (hx : x ≠ '|') : r'.sees x = r.sees x := Cursor.Framed.sees_eq h hx

theorem next_of_sees {x : Char} (hr : r.sees x = true) : r.next.Framed more r'.next :=
  Cursor.Framed.next_of_sees h hr

end Reader.Framed

/-- Something other than blanks is left to read. -/
def Reader.Open (r : Reader) : Prop := r.cursor.skipBlanks.rest ≠ []

theorem Reader.open_of_sees {r : Reader} {x : Char} (h : r.skipBlanks.sees x = true) : r.Open :=
  Cursor.rest_ne_nil (Cursor.peek?_of_sees h)

section

variable {α β : Type}

/-- What is read and leaves a reader with `ends` is read in the same way before a bar. `view` is
what counts of it. -/
def Reading.Framed (more : List Char) (ends : Reader → Prop) (view : α → β)
    (read : Reading α) : Prop :=
  ∀ r a s, read r = .ok (a, s) → ends s → ∀ r', r.Framed more r' →
    ∃ a' s', read r' = .ok (a', s') ∧ view a' = view a ∧ s.Framed more s'

/-- What is found and leaves a reader with `ends` is found in the same way before a bar. -/
def Probing.Framed (more : List Char) (ends : Reader → Prop) (view : α → β)
    (read : Probing α) : Prop :=
  ∀ r a s, read r = .ok (some (a, s)) → ends s → ∀ r', r.Framed more r' →
    ∃ a' s', read r' = .ok (some (a', s')) ∧ view a' = view a ∧ s.Framed more s'

variable {more : List Char} {ends : Reader → Prop} {view : α → β} {step : Probing α}

theorem ends_of_many (hbefore : ∀ r x, step r = .ok (some x) → ends r) {r s : Reader} {as : List α}
    (h : many Reader.size step r = .ok (as, s)) (hs : ends s) : ends r := by
  rw [many_eq] at h
  obtain ⟨found, hfound, h⟩ := Except.bind_ok h
  cases found with
  | none =>
    cases h
    exact hs
  | some x => exact hbefore r x hfound

/-- Repetition before a bar finds the same, and then goes on from the bar. -/
theorem Probing.Framed.many (hstep : step.Framed more ends view) (hf : step.Forward)
    (hbefore : ∀ r x, step r = .ok (some x) → ends r) {r s r' : Reader} {as : List α}
    (h : many Reader.size step r = .ok (as, s)) (hs : ends s) (hr : r.Framed more r') :
    ∃ as' s', as'.map view = as.map view ∧ s.Framed more s' ∧
      ∀ bs t, Formula.many Reader.size step s' = .ok (bs, t) →
        Formula.many Reader.size step r' = .ok (as' ++ bs, t) := by
  fun_induction Formula.many Reader.size step r generalizing r' as s with
  | case1 => cases h
  | case2 r hnone =>
    cases h
    exact ⟨[], r', rfl, hr, fun _ _ h => h⟩
  | case3 => cases h
  | case4 r a t hsome hlt as u hmore ih =>
    cases h
    obtain ⟨a', t', hsome', ha, ht⟩ := hstep r a t hsome (ends_of_many hbefore hmore hs) r' hr
    obtain ⟨as', s', has, hs', hgo⟩ := ih hmore hs ht
    refine ⟨a' :: as', s', by rw [List.map_cons, List.map_cons, ha, has], hs', fun bs v hv => ?_⟩
    exact hf.many_cons hsome' (hgo bs v hv)
  | case5 r a t hsome hlt => exact (hlt (hf r a t hsome).2).elim

/-- Repetition that stops before the bar. -/
theorem Probing.Framed.many_closed (hstep : step.Framed more ends view) (hf : step.Forward)
    (hbefore : ∀ r x, step r = .ok (some x) → ends r) {r s r' : Reader} {as : List α}
    (h : Formula.many Reader.size step r = .ok (as, s)) (hs : ends s) (hr : r.Framed more r')
    (hnone : ∀ s', s.Framed more s' → step s = .ok none → step s' = .ok none) :
    ∃ as' s', Formula.many Reader.size step r' = .ok (as', s') ∧ as'.map view = as.map view ∧
      s.Framed more s' := by
  obtain ⟨as', s', has, hs', hgo⟩ := hstep.many hf hbefore h hs hr
  have hend : Formula.many Reader.size step s' = .ok ([], s') := by
    rw [many_eq, hnone s' hs' (hf.many_stops h)]
    rfl
  have hmany := hgo [] s' hend
  rw [List.append_nil] at hmany
  exact ⟨as', s', hmany, has, hs'⟩

end

/-- Whatever stands behind a text, the same is read from it. -/
abbrev anyEnd : Reader → Prop := fun _ => True

/-- Readers of a level read the same before a bar. Lists of elements do if something else ends
them. -/
structure Level.Framed (more : List Char) (level : Level) : Prop where
  typeArguments {c c' : Cursor} : c.Framed more c' →
    SameOutcome (FramedResult more) (level.typeArguments c) (level.typeArguments c')
  enter {inner : Reading (List Node)} : level.enter = .ok inner →
    inner.Framed more Reader.Open (List.map Node.unmarked)

namespace Level.Framed

variable {more : List Char} {level : Level}

theorem readArgument {inner : Reading (List Node)}
    (h : inner.Framed more Reader.Open (List.map Node.unmarked)) :
    Reading.Framed more Reader.Open Node.unmarked (readArgument inner) := by
  intro r n s hr hs r' hrr
  obtain ⟨⟨items, r₁⟩, hi, hr⟩ := Except.bind_ok hr
  simp only at hr
  split at hr
  · cases hr
  · rename_i hne
    cases hr
    obtain ⟨items', r₁', hi', hitems, h₁⟩ := h r items r₁ hi hs r' hrr
    refine ⟨.block (r₁'.mark r'.cursor.offset) items', r₁'.made r₁'.cursor, ?_, ?_, h₁⟩
    · unfold Formula.readArgument
      rw [hi']
      exact if_neg (isEmpty_of_views hitems ▸ hne)
    · simp only [Node.unmarked, Node.unmarkedAll_eq_map, hitems]

theorem readNextArgument {inner : Reading (List Node)}
    (h : inner.Framed more Reader.Open (List.map Node.unmarked)) :
    Probing.Framed more Reader.Open Node.unmarked (readNextArgument inner) := by
  intro r n s hr hs r' hrr
  unfold Formula.readNextArgument at hr
  split at hr
  · rename_i hcomma
    obtain ⟨⟨n', r₁⟩, hn, he⟩ := Except.map_ok hr
    cases he
    obtain ⟨n', s', hn', hview, hss⟩ :=
      readArgument h _ n s hn hs r'.skipBlanks.next (hrr.skipBlanks.next_of_sees hcomma)
    refine ⟨n', s', ?_, hview, hss⟩
    unfold Formula.readNextArgument
    rw [if_pos ((hrr.skipBlanks.sees_eq (by decide)).trans hcomma), hn']
    rfl
  · cases hr

theorem readNextArgument_none {inner : Reading (List Node)} {s s' : Reader} (hss : s.Framed more s')
    (hs : Formula.readNextArgument inner s = .ok none) :
    Formula.readNextArgument inner s' = .ok none := by
  unfold Formula.readNextArgument at hs ⊢
  split at hs
  · obtain ⟨_, -, he⟩ := Except.map_ok hs
    cases he
  · rename_i hcomma
    exact if_neg fun hcomma' => hcomma ((hss.skipBlanks.sees_eq (by decide)).symm.trans hcomma')

variable (h : level.Framed more) (hf : level.Forward)

include h hf

theorem readArguments {close : Char} (hclose : close ≠ '|') :
    Reading.Framed more anyEnd (List.map Node.unmarked) (readArguments level close) := by
  intro r ns s hr _ r' hrr
  obtain ⟨inner, hi, hr⟩ := Except.bind_ok hr
  have hinner := h.enter hi
  have hblanks := hrr.skipBlanks
  have hsees := hblanks.sees_eq hclose
  unfold Formula.readArguments
  rw [hi]
  show ∃ a' s', (if r'.skipBlanks.sees close then _ else _) = _ ∧ _
  simp only at hr
  split at hr
  · rename_i hempty
    cases hr
    refine ⟨[], r'.skipBlanks.next, ?_, rfl, hblanks.next_of_sees hempty⟩
    exact if_pos (hsees.trans hempty)
  · rename_i hempty
    rw [if_neg fun hempty' => hempty (hsees.symm.trans hempty')]
    obtain ⟨⟨first, r₁⟩, h₁, hr⟩ := Except.bind_ok hr
    obtain ⟨⟨others, r₂⟩, h₂, hr⟩ := Except.bind_ok hr
    simp only at hr
    split at hr
    · rename_i hend
      cases hr
      -- a further argument starts at a comma, and the last one ends before `close`
      have hbefore : ∀ r x, Formula.readNextArgument inner r = .ok (some x) → r.Open := by
        intro r x hx
        unfold Formula.readNextArgument at hx
        split at hx
        · rename_i hcomma
          exact Reader.open_of_sees hcomma
        · cases hx
      have hopen₂ : r₂.Open := Reader.open_of_sees hend
      obtain ⟨first', r₁', h₁', hfirst, hr₁⟩ :=
        readArgument hinner _ first r₁ h₁ (ends_of_many hbefore h₂ hopen₂) r'.skipBlanks hblanks
      obtain ⟨others', r₂', h₂', hothers, hr₂⟩ := (readNextArgument hinner).many_closed
        (Level.Forward.readNextArgument (hf.enter hi)) hbefore h₂ hopen₂ hr₁
        (fun _ => readNextArgument_none)
      rw [h₁']
      refine ⟨first' :: others', r₂'.skipBlanks.next, ?_, ?_, hr₂.skipBlanks.next_of_sees hend⟩
      · show (Formula.many _ _ r₁' >>= _) = _
        rw [h₂']
        exact if_pos ((hr₂.skipBlanks.sees_eq hclose).trans hend)
      · rw [List.map_cons, List.map_cons, hfirst, hothers]
    · cases hr

theorem readIndexer :
    Probing.Framed more anyEnd (Segment.unmarked Node.unmarked) (readIndexer level) := by
  intro r segment s hr _ r' hrr
  unfold Formula.readIndexer at hr
  split at hr
  · rename_i hbracket
    obtain ⟨⟨args, r₁⟩, h₁, hr⟩ := Except.bind_ok hr
    simp only at hr
    split at hr
    · cases hr
    · rename_i hne
      cases hr
      obtain ⟨args', r₁', h₁', hargs, hr₁⟩ :=
        h.readArguments hf (by decide) _ args r₁ h₁ trivial r'.next (hrr.next_of_sees hbracket)
      refine ⟨.indexer (r₁'.mark r'.cursor.offset) args', r₁'.made r₁'.cursor, ?_, ?_, hr₁⟩
      · unfold Formula.readIndexer
        rw [if_pos ((hrr.sees_eq (by decide)).trans hbracket), h₁']
        exact if_neg (isEmpty_of_views hargs ▸ hne)
      · simp only [Segment.unmarked, hargs]
  · cases hr

omit h hf in
theorem readIndexer_none {s s' : Reader} (hss : s.Framed more s')
    (hs : Formula.readIndexer level s = .ok none) : Formula.readIndexer level s' = .ok none := by
  unfold Formula.readIndexer at hs ⊢
  split at hs
  · obtain ⟨⟨args, r₁⟩, -, hs⟩ := Except.bind_ok hs
    simp only at hs
    split at hs <;> cases hs
  · rename_i hbracket
    exact if_neg fun hbracket' => hbracket ((hss.sees_eq (by decide)).symm.trans hbracket')

theorem readNamed :
    Reading.Framed more anyEnd (Segment.unmarked Node.unmarked) (readNamed level) := by
  intro r segment s hr _ r' hrr
  obtain ⟨hspan, hafter⟩ := Cursor.Framed.span hrr (p := isNameChar) rfl
  have hname : r'.cursor.rest.takeWhile isNameChar = r.cursor.rest.takeWhile isNameChar := hspan
  obtain ⟨⟨generics, cursor⟩, h₁, hr⟩ := Except.bind_ok hr
  obtain ⟨⟨_, cursor'⟩, h₁', hgenerics, hcursor⟩ := (h.typeArguments hafter).ok h₁
  cases hgenerics
  have hafter : Reader.Framed more ⟨cursor, r.nodes⟩ ⟨cursor', r'.nodes⟩ := hcursor
  have hsees := hafter.sees_eq (x := '(') (by decide)
  unfold Formula.readNamed
  show ∃ a' s', (level.typeArguments (r'.cursor.span isNameChar).2 >>= _) = _ ∧ _
  rw [h₁']
  show ∃ a' s', (if Reader.sees ⟨cursor', r'.nodes⟩ '(' then _ else _) = _ ∧ _
  simp only at hr
  split at hr
  · rename_i hopen
    obtain ⟨⟨args, r₁⟩, h₂, hr⟩ := Except.bind_ok hr
    cases hr
    obtain ⟨args', r₁', h₂', hargs, hr₁⟩ :=
      h.readArguments hf (by decide) _ args r₁ h₂ trivial _ (hafter.next_of_sees hopen)
    rw [if_pos (hsees.trans hopen), h₂']
    exact ⟨_, _, rfl, by simp only [Segment.unmarked, hargs, hname], hr₁⟩
  · rename_i hopen
    cases hr
    rw [if_neg fun hopen' => hopen (hsees.symm.trans hopen')]
    exact ⟨_, _, rfl, by simp only [Segment.unmarked, hname], hcursor⟩

theorem readSegments :
    Reading.Framed more anyEnd (List.map (Segment.unmarked Node.unmarked))
      (readSegments level) := by
  intro r segments s hr _ r' hrr
  obtain ⟨⟨named, r₁⟩, h₁, hr⟩ := Except.bind_ok hr
  obtain ⟨⟨indexers, r₂⟩, h₂, hr⟩ := Except.bind_ok hr
  cases hr
  obtain ⟨named', r₁', h₁', hnamed, hr₁⟩ := h.readNamed hf r named r₁ h₁ trivial r' hrr
  obtain ⟨indexers', r₂', h₂', hindexers, hr₂⟩ := (h.readIndexer hf).many_closed hf.readIndexer
    (fun _ _ _ => trivial) h₂ trivial hr₁ (fun _ => readIndexer_none)
  refine ⟨named' :: indexers', r₂', ?_, ?_, hr₂⟩
  · unfold Formula.readSegments
    rw [h₁']
    show (Formula.many _ _ r₁' >>= _) = _
    rw [h₂']
    rfl
  · rw [List.map_cons, List.map_cons, hnamed, hindexers]

theorem readNextSegments :
    Probing.Framed more anyEnd (List.map (Segment.unmarked Node.unmarked))
      (readNextSegments level) := by
  intro r segments s hr _ r' hrr
  unfold Formula.readNextSegments at hr
  split at hr
  · rename_i hdot
    obtain ⟨⟨segments₁, r₁⟩, h₁, he⟩ := Except.map_ok hr
    cases he
    obtain ⟨x, hx⟩ := Cursor.peek?_of_seesDotName hdot
    obtain ⟨segments', s', h₁', hsegments, hss⟩ :=
      h.readSegments hf _ segments s h₁ trivial r'.next (Cursor.Framed.next hrr hx)
    refine ⟨segments', s', ?_, hsegments, hss⟩
    unfold Formula.readNextSegments
    rw [if_pos ((Cursor.Framed.seesDotName_eq hrr).trans hdot), h₁']
    rfl
  · cases hr

omit h hf in
theorem readNextSegments_none {s s' : Reader} (hss : s.Framed more s')
    (hs : Formula.readNextSegments level s = .ok none) :
    Formula.readNextSegments level s' = .ok none := by
  unfold Formula.readNextSegments at hs ⊢
  split at hs
  · obtain ⟨_, -, he⟩ := Except.map_ok hs
    cases he
  · rename_i hdot
    exact if_neg fun hdot' => hdot ((Cursor.Framed.seesDotName_eq hss).symm.trans hdot')

theorem readRoute : Reading.Framed more anyEnd Node.unmarked (readRoute level) := by
  intro r n s hr _ r' hrr
  obtain ⟨⟨first, r₁⟩, h₁, hr⟩ := Except.bind_ok hr
  obtain ⟨⟨others, r₂⟩, h₂, hr⟩ := Except.bind_ok hr
  cases hr
  obtain ⟨first', r₁', h₁', hfirst, hr₁⟩ := h.readSegments hf r first r₁ h₁ trivial r' hrr
  obtain ⟨others', r₂', h₂', hothers, hr₂⟩ :=
    (h.readNextSegments hf).many_closed hf.readNextSegments
    (fun _ _ _ => trivial) h₂ trivial hr₁ (fun _ => readNextSegments_none)
  refine ⟨.route (r₂'.mark r'.cursor.offset) .scope (first' ++ others'.flatten),
    r₂'.made r₂'.cursor, ?_, ?_, hr₂⟩
  · unfold Formula.readRoute
    rw [h₁']
    show (Formula.many _ _ r₁' >>= _) = _
    rw [h₂']
    rfl
  · simp only [Node.unmarked, Node.unmarkedSegments_eq_map, List.map_append,
      List.map_flatten, hfirst, hothers]

omit hf in
theorem readParentheses {r s r' : Reader} {n : Node} (hopen : r.sees '(' = true)
    (hr : readParentheses level r = .ok (n, s)) (hrr : r.Framed more r') :
    ∃ n' s', Formula.readParentheses level r' = .ok (n', s') ∧ n'.unmarked = n.unmarked ∧
      s.Framed more s' := by
  obtain ⟨inner, hi, hr⟩ := Except.bind_ok hr
  obtain ⟨⟨items, r₁⟩, h₁, hr⟩ := Except.bind_ok hr
  simp only at hr
  split at hr
  · cases hr
  · rename_i hclose
    split at hr
    · cases hr
    · rename_i hne
      cases hr
      have hclose : r₁.skipBlanks.sees ')' = true := by simpa using hclose
      obtain ⟨items', r₁', h₁', hitems, hr₁⟩ :=
        h.enter hi _ items r₁ h₁ (Reader.open_of_sees hclose) r'.next (hrr.next_of_sees hopen)
      have hclose' := (hr₁.skipBlanks.sees_eq (x := ')') (by decide)).trans hclose
      unfold Formula.readParentheses
      rw [hi]
      show ∃ n' s', (inner r'.next >>= _) = _ ∧ _
      rw [h₁']
      refine ⟨.block (r₁'.skipBlanks.mark r'.cursor.offset) items',
        r₁'.skipBlanks.made r₁'.skipBlanks.next.cursor, ?_, ?_, hr₁.skipBlanks.next_of_sees hclose⟩
      · show (if (!r₁'.skipBlanks.sees ')') = true then _ else _) = _
        rw [hclose']
        exact if_neg (isEmpty_of_views hitems ▸ hne)
      · simp only [Node.unmarked, Node.unmarkedAll_eq_map, hitems]

theorem readElementAt {r s r' : Reader} {c : Char} {n : Node} (hc : r.cursor.peek? = some c)
    (hr : readElementAt level c r = .ok (n, s)) (hrr : r.Framed more r') :
    ∃ n' s', Formula.readElementAt level c r' = .ok (n', s') ∧ n'.unmarked = n.unmarked ∧
      s.Framed more s' := by
  unfold Formula.readElementAt at hr ⊢
  simp only at hr ⊢
  split at hr
  · rename_i hopen
    rw [if_pos hopen]
    subst hopen
    exact h.readParentheses (decide_eq_true hc) hr hrr
  rename_i hopen
  rw [if_neg hopen]
  split at hr
  · rename_i hquote
    rw [if_pos hquote]
    split at hr
    · cases hr
    · rename_i v after hstring
      cases hr
      obtain ⟨after', hstring', hafter⟩ :=
        readString_framed (decide_eq_true (hquote ▸ hc)) hstring hrr
      rw [hstring']
      exact ⟨_, _, rfl, rfl, hafter⟩
  rename_i hquote
  rw [if_neg hquote]
  split at hr
  · rename_i hnumber
    rw [if_pos hnumber]
    obtain ⟨hlexeme, hafter⟩ := readNumber_framed (Cursor.rest_ne_nil hc) hrr
    rw [hlexeme]
    split at hr
    · cases hr
    · rename_i lexeme hread
      cases hr
      refine ⟨_, _, rfl, ?_, hafter⟩
      cases lexeme <;> rfl
  rename_i hnumber
  rw [if_neg hnumber]
  split at hr
  · rename_i hname
    rw [if_pos hname]
    exact h.readRoute hf _ _ _ hr trivial _ hrr
  rename_i hname
  rw [if_neg hname]
  split at hr
  · cases hr
    exact ⟨_, _, rfl, rfl, Cursor.Framed.next hrr hc⟩
  · cases hr
    obtain ⟨hraw, hafter⟩ := readStray_framed (Cursor.rest_ne_nil hc) hrr
    rw [hraw]
    exact ⟨_, _, rfl, rfl, hafter⟩

theorem readElement : Probing.Framed more anyEnd Node.unmarked (readElement level) := by
  intro r n s hr _ r' hrr
  unfold Formula.readElement at hr ⊢
  simp only at hr ⊢
  split at hr
  · cases hr
  · rename_i c hc
    have hc' : r'.skipBlanks.cursor.peek? = some c := Cursor.Framed.peek? hrr.skipBlanks hc
    split at hr
    · cases hr
    · rename_i hends
      obtain ⟨⟨n₁, s₁⟩, hn, he⟩ := Except.map_ok hr
      cases he
      obtain ⟨n', s', hn', hview, hss⟩ := h.readElementAt hf hc hn hrr.skipBlanks
      refine ⟨n', s', ?_, hview, hss⟩
      simp only [hc', if_neg hends, hn']
      rfl

omit h hf in
/-- A list that something else ends is ended by it before a bar as well. -/
theorem readElement_none {s s' : Reader} (hopen : s.Open) (hss : s.Framed more s')
    (hs : Formula.readElement level s = .ok none) : Formula.readElement level s' = .ok none := by
  unfold Formula.readElement at hs ⊢
  simp only at hs ⊢
  split at hs
  · rename_i hnone
    exact (hopen (List.head?_eq_none_iff.mp hnone)).elim
  · rename_i c hc
    have hc' : s'.skipBlanks.cursor.peek? = some c := Cursor.Framed.peek? hss.skipBlanks hc
    rw [hc']
    split at hs
    · rename_i hends
      exact if_pos hends
    · obtain ⟨_, -, he⟩ := Except.map_ok hs
      cases he

end Level.Framed

theorem levelAt_framed (more : List Char) (limit room : Nat) :
    (levelAt limit room).Framed more := by
  induction room with
  | zero =>
    refine ⟨fun h => ?_, nofun⟩
    rw [levelAt_typeArguments]
    exact (Cursor.alike_framed more).typeArguments? limit 0 h
  | succ room ih =>
    refine ⟨fun h => ?_, fun h => ?_⟩
    · rw [levelAt_typeArguments]
      exact (Cursor.alike_framed more).typeArguments? limit (room + 1) h
    · cases h
      rw [readElements_eq]
      intro r items s hr hs r' hrr
      have hforward := levelAt_forward limit room
      exact (ih.readElement hforward).many_closed hforward.readElement (fun _ _ _ => trivial) hr
        trivial hrr fun _ => Level.Framed.readElement_none hs

/-! ## A text between bars -/

theorem readElement_bar (level : Level) {r : Reader} {rest : List Char}
    (h : r.cursor.skipBlanks.rest = '|' :: rest) :
    ∃ m s, readElement level r = .ok (some (.operator m .bar, s)) ∧ s.cursor.rest = rest := by
  have hpeek : r.skipBlanks.cursor.peek? = some '|' := congrArg List.head? h
  refine ⟨r.skipBlanks.mark r.skipBlanks.cursor.offset,
    r.skipBlanks.made r.skipBlanks.cursor.next, ?_, ?_⟩
  · unfold readElement
    simp only [hpeek]
    rfl
  · show r.cursor.skipBlanks.next.rest = rest
    rw [Cursor.next, h]

theorem Node.ofSource_block {limit : Nat} {source : String} {root : Node} {n : Nat}
    (h : Node.ofSource limit source = .ok (root, n)) : ∃ mark items, root = .block mark items := by
  obtain ⟨items, r, -, -, -, hroot, -⟩ := Node.ofSource_ok_iff.mp h
  exact ⟨_, items, hroot⟩

/-- A text between bars is read as its elements between two bars. -/
theorem Node.ofSource_bars {limit : Nat} {source : String} {m : Mark} {items : List Node} {n : Nat}
    (h : Node.ofSource limit source = .ok (.block m items, n)) :
    ∃ m₀ m₁ m₂ items' n', items'.map Node.unmarked = items.map Node.unmarked ∧
      Node.ofSource limit ("|" ++ source ++ "|") =
        .ok (.block m₀ (.operator m₁ .bar :: items' ++ [.operator m₂ .bar]), n') := by
  obtain ⟨items₁, r, hread, hend, -, hroot, rfl⟩ := Node.ofSource_ok_iff.mp h
  cases hroot
  have hforward := (levelAt_forward limit limit).readElement
  have hframed := (levelAt_framed [] limit limit).readElement (levelAt_forward limit limit)
  rw [readElements_eq] at hread
  -- the opening bar
  let start : Reader := ⟨.start ("|" ++ source ++ "|"), 0⟩
  have htext : start.cursor.skipBlanks.rest = '|' :: (source.toList ++ ['|']) := by
    show (("|" ++ source ++ "|").toList).dropWhile isBlank = _
    rw [String.toList_append, String.toList_append]
    rfl
  obtain ⟨m₁, s₁, hbar₁, hs₁⟩ := readElement_bar (levelAt limit limit) htext
  -- the text
  have hstart : Reader.Framed [] ⟨.start source, 0⟩ s₁ := hs₁
  obtain ⟨items', s', hitems, hss, hgo⟩ :=
    hframed.many hforward (fun _ _ _ => trivial) hread trivial hstart
  -- the closing bar, and the end
  have hrest : s'.cursor.skipBlanks.rest = '|' :: [] := by
    have hnil : r.cursor.skipBlanks.rest = [] := List.head?_eq_none_iff.mp hend
    rw [Cursor.Framed.skipBlanks hss, hnil]
    rfl
  obtain ⟨m₂, s₂, hbar₂, hs₂⟩ := readElement_bar (levelAt limit limit) hrest
  have hempty : s₂.skipBlanks.cursor.peek? = none := by
    show (s₂.cursor.rest.dropWhile isBlank).head? = none
    rw [hs₂]
    rfl
  have hstop : many Reader.size (readElement (levelAt limit limit)) s₂ = .ok ([], s₂) := by
    rw [many_eq, readElement]
    simp only [hempty]
    rfl
  have hmany : readElements limit limit start =
      .ok (.operator m₁ .bar :: (items' ++ [.operator m₂ .bar]), s₂) := by
    rw [readElements_eq]
    exact hforward.many_cons hbar₁ (hgo _ _ (hforward.many_cons hbar₂ hstop))
  exact ⟨s₂.skipBlanks.mark 0, m₁, m₂, items', s₂.nodes + 1, hitems,
    Node.ofSource_ok_iff.mpr ⟨_, s₂, hmany, hempty, List.cons_ne_nil _ _, rfl, rfl⟩⟩

end Formula
