import Formula.Proofs.Layout

/-!
# Blanks between elements

A text that is read can be respaced: with blanks at the places of its layout it is read to the same
tree, but for offsets. Each reader is followed through both texts at once (`Reading.Respaced`,
`Probing.Respaced`). It ends in front of the same rest, which may itself be looser, as nothing that
is read depends on blanks far behind it.
-/

namespace Formula

/-! ## Trees without their places -/

/-- The mark without the offset. -/
def Mark.unplaced (m : Mark) : Mark := ⟨m.slot, 0⟩

/-- A segment without its offset, and other arguments. -/
def Segment.unplaced {α β : Type} (f : α → β) : Segment α → Segment β
  | .member mark name generics => .member mark.unplaced name generics
  | .method mark name generics args => .method mark.unplaced name generics (args.map f)
  | .indexer mark args => .indexer mark.unplaced (args.map f)

namespace Node

mutual

/-- A tree without its offsets. Nodes keep their numbers. -/
def unplaced : Node → Node
  | .constant mark v => .constant mark.unplaced v
  | .operator mark op => .operator mark.unplaced op
  | .cast mark typeMark target signs operand =>
    .cast mark.unplaced typeMark.unplaced target (signs.map fun sign => (sign.1.unplaced, sign.2))
      (unplaced operand)
  | .route mark head segments => .route mark.unplaced head (unplacedSegments segments)
  | .block mark items => .block mark.unplaced (unplacedAll items)
  | .unresolved mark raw => .unresolved mark.unplaced raw

/-- `unplaced` on each node of a list. -/
def unplacedAll : List Node → List Node
  | [] => []
  | n :: ns => unplaced n :: unplacedAll ns

/-- `unplaced` on each segment and its arguments. -/
def unplacedSegments : List (Segment Node) → List (Segment Node)
  | [] => []
  | .member mark name generics :: rest =>
    .member mark.unplaced name generics :: unplacedSegments rest
  | .method mark name generics args :: rest =>
    .method mark.unplaced name generics (unplacedAll args) :: unplacedSegments rest
  | .indexer mark args :: rest => .indexer mark.unplaced (unplacedAll args) :: unplacedSegments rest

end

theorem unplacedAll_eq_map (ns : List Node) : unplacedAll ns = ns.map unplaced := by
  induction ns with
  | nil => rfl
  | cons n ns ih => simp [unplacedAll, ih]

theorem unplacedSegments_eq_map (segments : List (Segment Node)) :
    unplacedSegments segments = segments.map (Segment.unplaced unplaced) := by
  induction segments with
  | nil => rfl
  | cons s rest ih => cases s <;> simp [unplacedSegments, Segment.unplaced, unplacedAll_eq_map, ih]

theorem unplaced_block (mark : Mark) (items : List Node) :
    (Node.block mark items).unplaced = .block mark.unplaced (items.map unplaced) := by
  rw [unplaced, unplacedAll_eq_map]

theorem unplaced_route (mark : Mark) (head : RouteHead) (segments : List (Segment Node)) :
    (Node.route mark head segments).unplaced =
      .route mark.unplaced head (segments.map (Segment.unplaced unplaced)) := by
  rw [unplaced, unplacedSegments_eq_map]

end Node

/-! ## Following both texts -/

/-- From `r` to `s` the text has the layout `m`. A reader `r'` in front of the text respaced, and
then of one that is looser than what follows `s`, gets to a reader `s'` in front of the latter, with
`P r' s'`. -/
structure Respacing (m : Layout) (r s : Reader) (P : Reader → Reader → Prop) : Prop where
  text : r.cursor.rest = m.text ++ s.cursor.rest
  reads : ∀ (r' : Reader) filled rest, Fills m filled → Loose s.cursor.rest rest →
    r'.cursor.rest = filled ++ rest →
    r'.nodes = r.nodes → ∃ s', P r' s' ∧ s'.cursor.rest = rest ∧ s'.nodes = s.nodes

/-- The reader `r'` has made as many nodes as `r`, and stands in front of a looser text. -/
structure Reader.Looser (r r' : Reader) : Prop where
  text : Loose r.cursor.rest r'.cursor.rest
  nodes : r'.nodes = r.nodes

namespace Respacing

variable {m m' : Layout} {r s t : Reader} {P Q : Reader → Reader → Prop}

theorem imp (h : Respacing m r s P)
    (himp : ∀ r' s', r.Looser r' → s.Looser s' → P r' s' → Q r' s') :
    Respacing m r s Q := by
  refine ⟨h.text, fun r' filled rest hfills hloose hr' hnodes => ?_⟩
  obtain ⟨s', hP, hrest, hnodes'⟩ := h.reads r' filled rest hfills hloose hr' hnodes
  have hr : r.Looser r' := ⟨by rw [h.text, hr']; exact hfills.loose.append hloose, hnodes⟩
  exact ⟨s', himp r' s' hr ⟨hrest ▸ hloose, hnodes'⟩ hP, hrest, hnodes'⟩

theorem nil (r : Reader) : Respacing [] r r fun r' s' => s' = r' := by
  refine ⟨rfl, fun r' filled rest hfills hloose hr' hnodes => ?_⟩
  cases hfills
  exact ⟨r', rfl, hr', hnodes⟩

theorem trans (h : Respacing m r s P) (h' : Respacing m' s t Q) :
    Respacing (m ++ m') r t fun r' t' => ∃ s', P r' s' ∧ Q s' t' := by
  refine ⟨by rw [h.text, h'.text, Layout.text_append, List.append_assoc],
    fun r' filled rest hfills hloose hr' hnodes => ?_⟩
  obtain ⟨u, v, rfl, hu, hv⟩ := hfills.split
  have hmid : Loose s.cursor.rest (v ++ rest) := by
    rw [h'.text]
    exact hv.loose.append hloose
  obtain ⟨s', hP, hrest, hnodes'⟩ :=
    h.reads r' u (v ++ rest) hu hmid (by rw [hr', List.append_assoc]) hnodes
  obtain ⟨t', hQ, ht'⟩ := h'.reads s' v rest hv hloose hrest hnodes'
  exact ⟨t', ⟨s', hP, hQ⟩, ht'⟩

/-- A character that is kept. -/
theorem char {x : Char} (hx : r.sees x = true) (h : Respacing m r.next s P) :
    Respacing (some x :: m) r s fun r' s' => r'.sees x = true ∧ P r'.next s' := by
  have hrest : r.cursor.rest = x :: r.next.cursor.rest := Cursor.rest_of_sees hx
  refine ⟨by rw [hrest, h.text]; rfl, fun r' filled rest hfills hloose hr' hnodes => ?_⟩
  obtain ⟨ds, rfl, hds⟩ := hfills.uncons
  rw [List.cons_append] at hr'
  obtain ⟨s', hP, hs'⟩ := h.reads r'.next ds rest hds hloose (Cursor.rest_next hr') hnodes
  exact ⟨s', ⟨(Cursor.sees_cons hr' x).trans (decide_eq_true rfl), hP⟩, hs'⟩

/-- What a layout starts with is seen. -/
theorem starts {x : Char} (hm : m.head? = some (some x)) (h : Respacing m r s P) :
    Respacing m r s fun r' s' => r'.sees x = true ∧ P r' s' := by
  refine ⟨h.text, fun r' filled rest hfills hloose hr' hnodes => ?_⟩
  obtain ⟨s', hP, hs'⟩ := h.reads r' filled rest hfills hloose hr' hnodes
  obtain ⟨ds, rfl⟩ := hfills.starts hm
  rw [List.cons_append] at hr'
  exact ⟨s', ⟨(Cursor.sees_cons hr' x).trans (decide_eq_true rfl), hP⟩, hs'⟩

/-- Blanks in front of what does not start with one. -/
theorem gap {x : Char} (hm : m.head? = some (some x)) (hx : isBlank x = false)
    (h : Respacing m r.skipBlanks s P) :
    Respacing (gap r ++ m) r s fun r' s' => P r'.skipBlanks s' := by
  refine ⟨?_, fun r' filled rest hfills hloose hr' hnodes => ?_⟩
  · rw [text_gap, List.append_assoc, ← h.text]
    exact List.takeWhile_append_dropWhile.symm
  · obtain ⟨blanks, more, rfl, hblanks, hmore⟩ := hfills.gap
    obtain ⟨ds, rfl⟩ := hmore.starts hm
    rw [List.append_assoc] at hr'
    exact h.reads r'.skipBlanks _ rest hmore hloose
      (Cursor.rest_skipBlanks_append hblanks (stopsAt_cons hx) hr') hnodes

/-- A text without places. -/
theorem kept {used : List Char} (htext : r.cursor.rest = used ++ s.cursor.rest)
    (h : ∀ (r' : Reader) rest, Loose s.cursor.rest rest → r'.cursor.rest = used ++ rest →
      r'.nodes = r.nodes →
      ∃ s', P r' s' ∧ s'.cursor.rest = rest ∧ s'.nodes = s.nodes) :
    Respacing (kept r.cursor.rest s.cursor.rest) r s P := by
  rw [kept_eq htext]
  refine ⟨by rw [Layout.text_map_some, htext], fun r' filled rest hfills hloose hr' hnodes => ?_⟩
  rw [hfills.eq_of_map_some] at hr'
  exact h r' rest hloose hr' hnodes

/-- A node is made where the text ends. -/
theorem made (h : Respacing m r s P) :
    Respacing m r (s.made s.cursor) fun r' t' => ∃ s', t' = s'.made s'.cursor ∧
      s'.nodes = s.nodes ∧ P r' s' := by
  refine ⟨h.text, fun r' filled rest hfills hloose hr' hnodes => ?_⟩
  obtain ⟨s', hP, hrest, hnodes'⟩ := h.reads r' filled rest hfills hloose hr' hnodes
  exact ⟨s'.made s'.cursor, ⟨s', rfl, hnodes', hP⟩, hrest, congrArg (· + 1) hnodes'⟩

end Respacing

namespace Reader.Looser

variable {r r' : Reader} (h : r.Looser r')

include h

theorem skipBlanks : r.skipBlanks.Looser r'.skipBlanks := ⟨h.text.skip.1, h.nodes⟩

/-- Behind all blanks, the same character follows. -/
theorem peek?_skipBlanks : r'.skipBlanks.cursor.peek? = r.skipBlanks.cursor.peek? := h.text.skip.2

theorem sees_skipBlanks (x : Char) : r'.skipBlanks.sees x = r.skipBlanks.sees x := by
  show decide (r'.skipBlanks.cursor.peek? = some x) = decide (r.skipBlanks.cursor.peek? = some x)
  rw [h.peek?_skipBlanks]

theorem sees_eq_false {x : Char} (hx : isBlank x = false) (hr : r.sees x = false) :
    r'.sees x = false :=
  Cursor.sees_loose hx h.text hr

end Reader.Looser

section

variable {α β : Type}

/-- Whatever is read is read the same from the text respaced, up to `view`. -/
def Reading.Respaced (layout : Reader → Layout) (view : α → β) (read : Reading α) : Prop :=
  ∀ r a s, read r = .ok (a, s) →
    Respacing (layout r) r s fun r' s' => ∃ a', read r' = .ok (a', s') ∧ view a' = view a

/-- Whatever is found is found in the text respaced, and where nothing is found nothing is in a
looser text. -/
structure Probing.Respaced (layout : Reader → Layout) (view : α → β) (step : Probing α) : Prop where
  found : ∀ r a s, step r = .ok (some (a, s)) →
    Respacing (layout r) r s fun r' s' => ∃ a', step r' = .ok (some (a', s')) ∧ view a' = view a
  none : ∀ r r', step r = .ok none → r.Looser r' → step r' = .ok none

private theorem visits_of_none {step : Probing α} {r : Reader} (h : step r = .ok none) :
    visits Reader.size step r = [] := by
  rw [visits, h]

private theorem visits_of_some {step : Probing α} (hf : step.Forward) {r s : Reader} {a : α}
    (h : step r = .ok (some (a, s))) :
    visits Reader.size step r = r :: visits Reader.size step s := by
  rw [visits, h]
  exact if_pos (hf r a s h).2

/-- A step that can be respaced can be so if it is repeated. -/
theorem Probing.Respaced.many {layout : Reader → Layout} {view : α → β} {step : Probing α}
    (hf : step.Forward) (h : step.Respaced layout view) :
    Reading.Respaced (manyLayout step layout) (List.map view) (many Reader.size step) := by
  intro r as s hr
  -- on what is left of the first text; the step in front of it is joined by `Respacing.trans`
  induction hn : r.size using Nat.strongRecOn generalizing r as with
  | ind n ih =>
    cases hstep : step r with
    | error e =>
      rw [many_eq, hstep] at hr
      cases hr
    | ok found =>
      cases found with
      | none =>
        cases (many_of_none hstep).symm.trans hr
        rw [manyLayout, visits_of_none hstep]
        refine (Respacing.nil s).imp fun r' s' hr' _ hs' => ?_
        subst hs'
        exact ⟨[], many_of_none (h.none s s' hstep hr'), rfl⟩
      | some x =>
        obtain ⟨a, t⟩ := x
        obtain ⟨as, rfl, hmany⟩ := hf.many_uncons hstep hr
        rw [manyLayout, visits_of_some hf hstep, List.flatMap_cons]
        refine ((h.found r a t hstep).trans (ih _ (hn ▸ (hf r a t hstep).2) t as hmany rfl)).imp ?_
        rintro r' u' - - ⟨t', ⟨a', hstep', ha⟩, as', hmany', has⟩
        exact ⟨a' :: as', hf.many_cons hstep' hmany', by rw [List.map_cons, List.map_cons, ha, has]⟩

theorem Reading.after_eq {read : Reading α} {r s : Reader} {a : α} (h : read r = .ok (a, s)) :
    read.after r = s := by
  rw [Reading.after, h]
  rfl

theorem Probing.after_eq {step : Probing α} {r s : Reader} {a : α}
    (h : step r = .ok (some (a, s))) :
    step.after r = s := by
  rw [Probing.after, h]
  rfl

end

/-! ## Arguments -/

/-- The readers of a level can be respaced; `inner` is the layout of the elements one level further
in. -/
structure Level.Respaced (inner : Reader → Layout) (level : Level) : Prop where
  forward : level.Forward
  found {c d : Cursor} {ts : List TypeName} : level.typeArguments c = .ok (some ts, d) →
    ∃ used, c.rest = used ++ d.rest ∧ ∀ more (c' : Cursor), c'.rest = used ++ more →
      ∃ d', level.typeArguments c' = .ok (some ts, d') ∧ d'.rest = more
  none {c d : Cursor} : level.typeArguments c = .ok (none, d) →
    d = c ∧ ∀ c' : Cursor, Loose c.rest c'.rest → level.typeArguments c' = .ok (none, c')
  elements {read : Reading (List Node)} : level.enter = .ok read →
    read.Respaced inner (List.map Node.unplaced)
  skips {read : Reading (List Node)} : level.enter = .ok read → ∀ r items s, items ≠ [] →
    (read r = .ok (items, s) ↔ read r.skipBlanks = .ok (items, s))

theorem Level.elements_eq {level : Level} {read : Reading (List Node)}
    (h : level.enter = .ok read) :
    level.elements = read := by
  funext r
  rw [Level.elements, h]
  rfl

theorem unplaced_mark {r r' : Reader} (h : r'.nodes = r.nodes) (offset offset' : Nat) :
    (r'.mark offset').unplaced = (r.mark offset).unplaced := by
  rw [Mark.unplaced, Mark.unplaced]
  show (⟨r'.nodes, 0⟩ : Mark) = ⟨r.nodes, 0⟩
  rw [h]

section

variable {inner : Reader → Layout} {read : Reading (List Node)}

private theorem readArgument_ok {r s : Reader} {n : Node} (h : readArgument read r = .ok (n, s)) :
    ∃ items t, read r = .ok (items, t) ∧ items ≠ [] ∧ n = .block (t.mark r.cursor.offset) items ∧
      s = t.made t.cursor := by
  obtain ⟨⟨items, t⟩, hread, h⟩ := Except.bind_ok h
  simp only at h
  split at h
  · cases h
  · rename_i hitems
    cases h
    exact ⟨items, t, hread, by simpa using hitems, rfl, rfl⟩

private theorem readArgument_eq {r t : Reader} {items : List Node} (h : read r = .ok (items, t))
    (hitems : items ≠ []) :
    readArgument read r = .ok (.block (t.mark r.cursor.offset) items, t.made t.cursor) := by
  rw [readArgument, h]
  exact if_neg (by simpa using hitems)

/-- An argument can be respaced, also if blanks are passed over in front of it. -/
theorem argument_respaced {f : Reader → Reader}
    (hf : ∀ r items s, items ≠ [] → (read r = .ok (items, s) ↔ read (f r) = .ok (items, s)))
    (h : read.Respaced inner (List.map Node.unplaced)) :
    Reading.Respaced inner Node.unplaced fun r => readArgument read (f r) := by
  intro r n s hr
  obtain ⟨items, t, hread, hitems, rfl, rfl⟩ := readArgument_ok hr
  refine ((h r items t ((hf r items t hitems).mpr hread)).made).imp ?_
  rintro r' _ - - ⟨t', rfl, hnodes, items', hread', hview⟩
  have hitems' : items' ≠ [] := by
    rintro rfl
    exact hitems (List.map_eq_nil_iff.mp hview.symm)
  refine ⟨_, readArgument_eq ((hf r' items' t' hitems').mp hread') hitems', ?_⟩
  rw [Node.unplaced_block, Node.unplaced_block, hview, unplaced_mark hnodes]

theorem readNextArgument_respaced (h : read.Respaced inner (List.map Node.unplaced)) :
    Probing.Respaced (nextArgumentLayout inner) Node.unplaced (readNextArgument read) := by
  refine ⟨fun r n s hr => ?_, fun r r' hr hr' => ?_⟩
  · unfold readNextArgument at hr
    split at hr
    · rename_i hcomma
      obtain ⟨⟨n, s⟩, hn, he⟩ := Except.map_ok hr
      cases he
      refine (((argument_respaced (f := id) (fun _ _ _ _ => Iff.rfl) h _ n s hn).char hcomma).gap
        rfl rfl).imp ?_
      rintro r' s' - - ⟨hcomma', n', hn', hview⟩
      refine ⟨n', ?_, hview⟩
      rw [readNextArgument, hcomma', if_pos rfl]
      exact congrArg (Except.map some) hn'
    · cases hr
  · unfold readNextArgument at hr ⊢
    rw [hr'.sees_skipBlanks]
    split at hr
    · obtain ⟨_, -, he⟩ := Except.map_ok hr
      cases he
    · rename_i hcomma
      rw [if_neg hcomma]

end

section

variable {inner : Reader → Layout} {level : Level} (h : level.Respaced inner)

include h

theorem readArguments_respaced {close : Char} (hclose : isBlank close = false) :
    Reading.Respaced (argumentsLayout level inner close) (List.map Node.unplaced)
      (readArguments level close) := by
  intro r args s hr
  obtain ⟨read, henter, hr⟩ := Except.bind_ok hr
  have helements := h.elements henter
  -- both texts are read by the reader that the level enters with
  have hread : ∀ r', readArguments level close r' =
      if r'.skipBlanks.sees close then .ok ([], r'.skipBlanks.next)
      else readArgument read r'.skipBlanks >>= fun first =>
        many Reader.size (readNextArgument read) first.2 >>= fun more =>
          if more.2.skipBlanks.sees close then .ok (first.1 :: more.1, more.2.skipBlanks.next)
          else .error (.parse (r'.cursor.offset - 1) (.unclosedArguments close)) := by
    intro r'
    rw [readArguments, henter]
    rfl
  unfold argumentsLayout
  simp only at hr
  cases hempty : r.skipBlanks.sees close with
  | true =>
    rw [hempty, if_pos rfl] at hr
    cases hr
    rw [if_pos rfl]
    refine (((Respacing.nil _).char hempty).gap rfl hclose).imp ?_
    rintro r' _ - - ⟨hempty', rfl⟩
    exact ⟨[], by rw [hread, hempty', if_pos rfl], rfl⟩
  | false =>
    rw [hempty, if_neg Bool.false_ne_true] at hr
    obtain ⟨⟨first, r₁⟩, hfirst, hr⟩ := Except.bind_ok hr
    obtain ⟨⟨more, r₂⟩, hmore, hr⟩ := Except.bind_ok hr
    simp only at hr
    split at hr
    · rename_i hsees
      cases hr
      replace hmore : many Reader.size (readNextArgument read) r₁ = .ok (more, r₂) := hmore
      rw [if_neg Bool.false_ne_true]
      simp only [Level.elements_eq henter, Reading.after_eq hfirst, Reading.after_eq hmore]
      have hfirst :=
        argument_respaced (f := Reader.skipBlanks) (h.skips henter) helements r first r₁ hfirst
      have hmore := (readNextArgument_respaced helements).many
        (Level.Forward.readNextArgument (h.forward.enter henter)) r₁ more r₂ hmore
      have hend := ((Respacing.nil _).char hsees).gap rfl hclose
      refine (hfirst.trans (hmore.trans hend)).imp ?_
      rintro r' _ hr' - ⟨r₁', ⟨first', hfirst', hview⟩, r₂', ⟨more', hmore', hviews⟩, hsees', rfl⟩
      refine ⟨first' :: more', ?_, by rw [List.map_cons, List.map_cons, hview, hviews]⟩
      rw [hread, hr'.sees_skipBlanks, hempty, if_neg Bool.false_ne_true,
        show readArgument read r'.skipBlanks = _ from hfirst']
      show many Reader.size (readNextArgument read) r₁' >>= _ = _
      rw [hmore']
      exact if_pos hsees'
    · cases hr

theorem readIndexer_respaced :
    Probing.Respaced (indexerLayout level inner) (Segment.unplaced Node.unplaced)
      (readIndexer level) := by
  refine ⟨fun r segment s hr => ?_, fun r r' hr hr' => ?_⟩
  · unfold readIndexer at hr
    split at hr
    · rename_i hopen
      obtain ⟨⟨args, t⟩, hargs, hr⟩ := Except.bind_ok hr
      simp only at hr
      split at hr
      · cases hr
      · rename_i hne
        cases hr
        refine (((readArguments_respaced h rfl r.next args t hargs).char hopen).made).imp ?_
        rintro r' _ - - ⟨t', rfl, hnodes, hopen', args', hargs', hview⟩
        have hne' : ¬ args'.isEmpty = true := by
          rwa [isEmpty_of_views hview]
        refine ⟨.indexer (t'.mark r'.cursor.offset) args', ?_, ?_⟩
        · rw [readIndexer, hopen', if_pos rfl, hargs']
          exact if_neg hne'
        · rw [Segment.unplaced, Segment.unplaced, hview, unplaced_mark hnodes]
    · cases hr
  · unfold readIndexer at hr ⊢
    split at hr
    · obtain ⟨⟨args, t⟩, -, hr⟩ := Except.bind_ok hr
      simp only at hr
      split at hr <;> cases hr
    · rename_i hopen
      rw [hr'.sees_eq_false rfl (Bool.eq_false_iff.mpr hopen)]
      rfl

/-! ## Routes -/

omit h in
private theorem span_append {p : Char → Bool} {c : Cursor} {run rest : List Char}
    (hrun : ∀ x ∈ run, p x = true) (hrest : StopsAt p rest) (hc : c.rest = run ++ rest) :
    (c.span p).1 = run ∧ (c.span p).2.rest = rest := by
  show c.rest.takeWhile p = run ∧ c.rest.dropWhile p = rest
  rw [hc, hrest.takeWhile hrun, hrest.dropWhile hrun]
  exact ⟨rfl, rfl⟩

/-- A name and its type arguments, without any place. -/
theorem name_respaced {r : Reader} {generics : Option (List TypeName)} {cursor : Cursor}
    (hr : level.typeArguments (r.cursor.span isNameChar).2 = .ok (generics, cursor)) :
    Respacing (kept r.cursor.rest cursor.rest) r ⟨cursor, r.nodes⟩ fun r' s' =>
      (r'.cursor.span isNameChar).1 = (r.cursor.span isNameChar).1 ∧ s'.nodes = r'.nodes ∧
        level.typeArguments (r'.cursor.span isNameChar).2 = .ok (generics, s'.cursor) := by
  have hsplit : r.cursor.rest = (r.cursor.span isNameChar).1 ++ (r.cursor.span isNameChar).2.rest :=
    List.takeWhile_append_dropWhile.symm
  have hchars : ∀ x ∈ (r.cursor.span isNameChar).1, isNameChar x = true := all_takeWhile
  have hstop : StopsAt isNameChar (r.cursor.span isNameChar).2.rest := stopsAt_dropWhile _ _
  generalize (r.cursor.span isNameChar).1 = run at hsplit hchars ⊢
  generalize (r.cursor.span isNameChar).2 = name at hr hsplit hstop
  -- a list that is found is kept with the name, and one that was given up must not be found in the
  -- looser text
  cases generics with
  | none =>
    obtain ⟨rfl, hnone⟩ := h.none hr
    refine Respacing.kept (s := ⟨cursor, r.nodes⟩) hsplit fun r' rest hloose hr' hnodes => ?_
    obtain ⟨hrun, hrest⟩ :=
      span_append hchars (hloose.trails.stopsAt (fun _ => isSolid_of_isNameChar) hstop) hr'
    exact ⟨⟨(r'.cursor.span isNameChar).2, r'.nodes⟩, ⟨hrun, rfl, hnone _ (hrest ▸ hloose)⟩,
      hrest, hnodes⟩
  | some ts =>
    obtain ⟨used, hused, hfound⟩ := h.found hr
    rw [hused] at hsplit hstop
    rw [← List.append_assoc] at hsplit
    refine Respacing.kept (s := ⟨cursor, r.nodes⟩) hsplit fun r' rest hloose hr' hnodes => ?_
    rw [List.append_assoc] at hr'
    obtain ⟨hrun, hrest⟩ :=
      span_append hchars (hstop.append_trails (fun _ => isSolid_of_isNameChar) hloose.trails) hr'
    obtain ⟨d', hd', hrest'⟩ := hfound rest _ hrest
    exact ⟨⟨d', r'.nodes⟩, ⟨hrun, rfl, hd'⟩, hrest', hnodes⟩

omit h in
theorem readNamed_eq {r : Reader} {generics : Option (List TypeName)} {cursor : Cursor}
    (h : level.typeArguments (r.cursor.span isNameChar).2 = .ok (generics, cursor)) :
    readNamed level r =
      if cursor.sees '(' then
        readArguments level ')' ⟨cursor.next, r.nodes⟩ >>= fun args =>
          .ok (.method (args.2.mark r.cursor.offset) (String.ofList (r.cursor.span isNameChar).1)
            (generics.getD []) args.1, args.2.made args.2.cursor)
      else
        .ok (.member (r.mark r.cursor.offset) (String.ofList (r.cursor.span isNameChar).1)
          (generics.getD []), r.made cursor) := by
  show level.typeArguments (r.cursor.span isNameChar).2 >>= _ = _
  rw [h]
  rfl

omit h in
theorem namedLayout_eq (inner : Reader → Layout) {r : Reader} {generics : Option (List TypeName)}
    {cursor : Cursor}
    (h : level.typeArguments (r.cursor.span isNameChar).2 = .ok (generics, cursor)) :
    namedLayout level inner r = kept r.cursor.rest cursor.rest ++
      if cursor.sees '(' then
        some '(' :: argumentsLayout level inner ')' ⟨cursor.next, r.nodes⟩ else [] := by
  have hcursor :
      (level.typeArguments (r.cursor.span isNameChar).2).toOption.elim
      (r.cursor.span isNameChar).2 (·.2) =
      cursor := by
    rw [h]
    rfl
  simp only [namedLayout, hcursor]

theorem readNamed_respaced :
    Reading.Respaced (namedLayout level inner) (Segment.unplaced Node.unplaced)
      (readNamed level) := by
  intro r segment s hr
  obtain ⟨⟨generics, cursor⟩, hgenerics, -⟩ := Except.bind_ok hr
  replace hgenerics : level.typeArguments (r.cursor.span isNameChar).2 = .ok (generics, cursor) :=
    hgenerics
  have hname := name_respaced h hgenerics
  rw [readNamed_eq hgenerics] at hr
  rw [namedLayout_eq inner hgenerics]
  cases hopen : cursor.sees '(' with
  | true =>
    rw [hopen, if_pos rfl] at hr
    obtain ⟨⟨args, t⟩, hargs, hr⟩ := Except.bind_ok hr
    cases hr
    have hargs := (readArguments_respaced h rfl _ args t hargs).char (r := ⟨cursor, r.nodes⟩) hopen
    rw [if_pos rfl]
    refine ((hname.trans hargs).made).imp ?_
    rintro r' _ - - ⟨t', rfl, hnodes, ⟨cursor', nodes'⟩, ⟨hrun, hs', hgenerics'⟩, hopen',
      args', hargs', hview⟩
    cases hs'
    refine ⟨.method (t'.mark r'.cursor.offset) (String.ofList (r'.cursor.span isNameChar).1)
      (generics.getD []) args', ?_, ?_⟩
    · rw [readNamed_eq hgenerics', show cursor'.sees '(' = true from hopen', if_pos rfl,
        show readArguments level ')' ⟨cursor'.next, r'.nodes⟩ = _ from hargs']
      rfl
    · rw [Segment.unplaced, Segment.unplaced, hview, hrun, unplaced_mark hnodes]
  | false =>
    rw [hopen, if_neg Bool.false_ne_true] at hr
    cases hr
    rw [if_neg Bool.false_ne_true, List.append_nil]
    -- a blank cannot make a call of a member
    have hclosed :=
      hname.imp (Q := fun r' s' => (_ ∧ _ ∧ _) ∧ s'.sees '(' = false) fun r' s' _ hs' hP =>
      ⟨hP, hs'.sees_eq_false rfl hopen⟩
    refine hclosed.made.imp ?_
    rintro r' _ hr' - ⟨⟨cursor', nodes'⟩, rfl, -, ⟨hrun, hs', hgenerics'⟩, hopen'⟩
    cases hs'
    refine ⟨.member (r'.mark r'.cursor.offset) (String.ofList (r'.cursor.span isNameChar).1)
      (generics.getD []), ?_, ?_⟩
    · rw [readNamed_eq hgenerics', show cursor'.sees '(' = false from hopen',
        if_neg Bool.false_ne_true]
      rfl
    · rw [Segment.unplaced, Segment.unplaced, hrun, unplaced_mark hr'.nodes]

theorem readSegments_respaced :
    Reading.Respaced (segmentsLayout level inner) (List.map (Segment.unplaced Node.unplaced))
      (readSegments level) := by
  intro r segments s hr
  obtain ⟨⟨first, t⟩, hfirst, hr⟩ := Except.bind_ok hr
  obtain ⟨⟨indexers, u⟩, hindexers, hr⟩ := Except.bind_ok hr
  cases hr
  rw [segmentsLayout, Reading.after_eq hfirst]
  refine ((readNamed_respaced h r first t hfirst).trans
    ((readIndexer_respaced h).many h.forward.readIndexer t indexers s hindexers)).imp ?_
  rintro r' u' - - ⟨t', ⟨first', hfirst', hview⟩, indexers', hindexers', hviews⟩
  refine ⟨first' :: indexers', ?_, by rw [List.map_cons, List.map_cons, hview, hviews]⟩
  rw [readSegments, hfirst']
  show many Reader.size (readIndexer level) t' >>= _ = _
  rw [hindexers']
  rfl

omit h in
/-- A dot and a name in front of a looser text stood there before. -/
theorem seesDotName_loose {c c' : Cursor} (hloose : Loose c.rest c'.rest)
    (h : c.seesDotName = false) :
    c'.seesDotName = false := by
  refine Bool.eq_false_iff.mpr fun hsees => ?_
  obtain ⟨x, hpeek, hx⟩ := Cursor.name_of_seesDotName hsees
  have hnext : c'.next.rest = x :: c'.next.next.rest := Cursor.rest_of_sees (decide_eq_true hpeek)
  rw [Cursor.rest_of_sees (Cursor.sees_of_seesDotName hsees), hnext] at hloose
  obtain ⟨ds, hc, hds⟩ := hloose.uncons rfl
  obtain ⟨es, rfl, -⟩ := hds.uncons (isBlank_of_isNameChar (isNameChar_of_isNameStart hx))
  rw [Cursor.seesDotName, hc] at h
  simp [hx] at h

/-- Where a name starts, the layout starts with it. -/
theorem segmentsLayout_head? {r s : Reader} {segments : List (Segment Node)} {x : Char}
    (hx : r.cursor.peek? = some x) (hname : isNameStart x = true)
    (hr : readSegments level r = .ok (segments, s)) :
    (segmentsLayout level inner r).head? = some (some x) := by
  obtain ⟨⟨first, t⟩, hfirst, -⟩ := Except.bind_ok hr
  obtain ⟨⟨generics, cursor⟩, hgenerics, -⟩ := Except.bind_ok hfirst
  replace hgenerics : level.typeArguments (r.cursor.span isNameChar).2 = .ok (generics, cursor) :=
    hgenerics
  have hlt : cursor.rest.length < r.cursor.rest.length :=
    Nat.lt_of_le_of_lt (h.forward.typeArguments hgenerics).length_le (Cursor.span_name_lt hx hname)
  have hhead := kept_head? hlt
  rw [show r.cursor.rest.head? = some x from hx] at hhead
  rw [segmentsLayout, namedLayout_eq inner hgenerics, List.append_assoc, List.head?_append, hhead]
  rfl

theorem readNextSegments_respaced :
    Probing.Respaced (nextSegmentsLayout level inner) (List.map (Segment.unplaced Node.unplaced))
      (readNextSegments level) := by
  refine ⟨fun r segments s hr => ?_, fun r r' hr hr' => ?_⟩
  · unfold readNextSegments at hr
    split at hr
    · rename_i hdot
      obtain ⟨⟨segments, s⟩, hsegments, he⟩ := Except.map_ok hr
      cases he
      obtain ⟨x, hpeek, hx⟩ := Cursor.name_of_seesDotName hdot
      refine (((readSegments_respaced h r.next segments s hsegments).starts
        (segmentsLayout_head? h hpeek hx hsegments)).char (Cursor.sees_of_seesDotName hdot)).imp ?_
      rintro r' s' - - ⟨hdot', hx', segments', hsegments', hview⟩
      have hsees : r'.cursor.seesDotName = true := by
        have hnext : r'.cursor.next.rest = x :: _ := Cursor.rest_of_sees hx'
        rw [Cursor.seesDotName,
          show r'.cursor.rest = '.' :: _ from Cursor.rest_of_sees hdot', hnext]
        simp [hx]
      refine ⟨segments', ?_, hview⟩
      rw [readNextSegments, hsees, if_pos rfl, hsegments']
      rfl
    · cases hr
  · unfold readNextSegments at hr ⊢
    split at hr
    · obtain ⟨_, -, he⟩ := Except.map_ok hr
      cases he
    · rename_i hdot
      rw [seesDotName_loose hr'.text (Bool.eq_false_iff.mpr hdot)]
      rfl

theorem readRoute_respaced :
    Reading.Respaced (routeLayout level inner) Node.unplaced (readRoute level) := by
  intro r n s hr
  obtain ⟨⟨first, t⟩, hfirst, hr⟩ := Except.bind_ok hr
  obtain ⟨⟨more, u⟩, hmore, hr⟩ := Except.bind_ok hr
  cases hr
  rw [routeLayout, Reading.after_eq hfirst]
  refine ((readSegments_respaced h r first t hfirst).trans
    ((readNextSegments_respaced h).many h.forward.readNextSegments t more u hmore)).made.imp ?_
  rintro r' _ - - ⟨u', rfl, hnodes, t', ⟨first', hfirst', hview⟩, more', hmore', hviews⟩
  refine ⟨.route (u'.mark r'.cursor.offset) .scope (first' ++ more'.flatten), ?_, ?_⟩
  · rw [readRoute, hfirst']
    show many Reader.size (readNextSegments level) t' >>= _ = _
    rw [hmore']
    rfl
  · rw [Node.unplaced_route, Node.unplaced_route, List.map_append, List.map_append,
      List.map_flatten, List.map_flatten, hview, hviews, unplaced_mark hnodes]

/-! ## Elements -/

theorem readParentheses_respaced {r s : Reader} {n : Node} (hopen : r.sees '(' = true)
    (hr : readParentheses level r = .ok (n, s)) :
    Respacing (parenthesesLayout level inner r) r s fun r' s' =>
      ∃ n', r'.sees '(' = true ∧ readParentheses level r' = .ok (n', s') ∧
        n'.unplaced = n.unplaced := by
  obtain ⟨read, henter, hr⟩ := Except.bind_ok hr
  obtain ⟨⟨items, t⟩, hitems, hr⟩ := Except.bind_ok hr
  simp only at hr
  split at hr
  · cases hr
  rename_i hclose
  rw [Bool.not_eq_true', Bool.not_eq_false] at hclose
  split at hr
  · cases hr
  rename_i hne
  cases hr
  rw [parenthesesLayout, Level.elements_eq henter, Reading.after_eq hitems]
  have hinner := h.elements henter r.next items t hitems
  have hend := ((Respacing.nil _).char hclose).gap rfl rfl
  refine ((hinner.trans hend).char hopen).made.imp ?_
  rintro r' _ - - ⟨_, rfl, hnodes, hopen', t', ⟨items', hitems', hview⟩, hclose', rfl⟩
  refine ⟨.block (t'.skipBlanks.mark r'.cursor.offset) items', hopen', ?_, ?_⟩
  · rw [readParentheses, henter]
    show read r'.next >>= _ = _
    rw [hitems']
    show (if !t'.skipBlanks.sees ')' then _ else if items'.isEmpty then _ else _) = _
    rw [hclose', if_neg (by simp), if_neg (by rwa [isEmpty_of_views hview])]
    rfl
  · rw [Node.unplaced_block, Node.unplaced_block, hview,
      unplaced_mark (show t'.skipBlanks.nodes = t.skipBlanks.nodes from hnodes)]

omit h in
theorem readElementAt_nameStart {x : Char} (hx : isNameStart x = true) (r : Reader) :
    readElementAt level x r = readRoute level r := by
  have hne : ∀ {y : Char}, isNameStart y = false → x ≠ y := by
    rintro y hy rfl
    exact Bool.false_ne_true (hy.symm.trans hx)
  rw [readElementAt, if_neg (hne rfl), if_neg (hne rfl), isDigit_of_isNameStart hx,
    decide_eq_false (hne rfl), if_neg (by simp), if_pos hx]

omit h in
/-- A literal, an operator or a stray has no place in it. -/
theorem leaf_respaced {r s : Reader} {c : Char} {n : Node} (hc : r.cursor.peek? = some c)
    (hopen : c ≠ '(') (hname : isNameStart c = false) (hr : readElementAt level c r = .ok (n, s)) :
    Respacing (kept r.cursor.rest s.cursor.rest) r s fun r' s' =>
      ∃ n', readElementAt level c r' = .ok (n', s') ∧ n'.unplaced = n.unplaced := by
  unfold readElementAt at hr ⊢
  simp only [if_neg hopen] at hr ⊢
  split at hr
  · rename_i hquote
    subst hquote
    cases hstring : readString r.cursor with
    | error e =>
      rw [hstring] at hr
      cases hr
    | ok x =>
      rw [hstring] at hr
      cases hr
      obtain ⟨used, hused, hfound⟩ := readString_found (decide_eq_true hc) hstring
      refine Respacing.kept (s := r.made x.2) hused fun r' rest _ hr' hnodes => ?_
      obtain ⟨d', hd', hrest⟩ := hfound rest r'.cursor hr'
      refine ⟨r'.made d', ⟨.constant (r'.mark r'.cursor.offset) x.1, ?_, ?_⟩, hrest,
        congrArg (· + 1) hnodes⟩
      · rw [if_pos rfl, hd']
      · rw [Node.unplaced, Node.unplaced, unplaced_mark hnodes]
  rename_i hquote
  simp only [if_neg hquote]
  split at hr
  · rename_i hdigit
    split at hr
    · cases hr
    · rename_i lexeme hread
      cases hr
      obtain ⟨used, hused, htrails⟩ := readNumber_trails (Cursor.rest_ne_nil hc)
      refine Respacing.kept (s := r.made (readNumber r.cursor).2) hused
        fun r' rest hrest hr' hnodes => ?_
      obtain ⟨hlexeme, hrest'⟩ := htrails r'.cursor rest hrest.trails hr'
      refine ⟨r'.made (readNumber r'.cursor).2,
        ⟨lexeme.node (r'.mark r'.cursor.offset), ?_, ?_⟩, hrest', congrArg (· + 1) hnodes⟩
      · rw [if_pos hdigit, hlexeme, hread]
      · cases lexeme <;> simp only [Lexeme.node, Node.unplaced,
          unplaced_mark hnodes r.cursor.offset]
  rename_i hdigit
  simp only [if_neg hdigit, hname, if_neg Bool.false_ne_true] at hr ⊢
  cases hop : Operator.ofChar? c with
  | some op =>
    rw [hop] at hr
    cases hr
    have hrest : r.cursor.rest = [c] ++ r.cursor.next.rest :=
      Cursor.rest_of_sees (decide_eq_true hc)
    refine Respacing.kept (s := r.made r.cursor.next) hrest fun r' rest _ hr' hnodes => ?_
    refine ⟨r'.made r'.cursor.next, ⟨.operator (r'.mark r'.cursor.offset) op, rfl, ?_⟩,
      Cursor.rest_next hr', congrArg (· + 1) hnodes⟩
    rw [Node.unplaced, Node.unplaced, unplaced_mark hnodes]
  | none =>
    rw [hop] at hr
    cases hr
    obtain ⟨used, hused, htrails⟩ := readStray_trails (Cursor.rest_ne_nil hc)
    refine Respacing.kept (s := r.made (readStray r.cursor).2) hused
      fun r' rest hrest hr' hnodes => ?_
    obtain ⟨hraw, hrest'⟩ := htrails r'.cursor rest hrest.trails hr'
    refine ⟨r'.made (readStray r'.cursor).2,
      ⟨.unresolved (r'.mark r'.cursor.offset) (readStray r'.cursor).1, rfl, ?_⟩, hrest',
      congrArg (· + 1) hnodes⟩
    rw [Node.unplaced, Node.unplaced, hraw, unplaced_mark hnodes]

omit h in
theorem readElement_eq {r : Reader} {c : Char} (hc : r.skipBlanks.cursor.peek? = some c)
    (hends : endsElements c = false) :
    readElement level r = (readElementAt level c r.skipBlanks).map some := by
  simp only [readElement, hc, hends]
  rfl

omit h in
private theorem isBlank_of_skipBlanks {r : Reader} {c : Char}
    (hc : r.skipBlanks.cursor.peek? = some c) :
    isBlank c = false :=
  stopsAt_dropWhile isBlank r.cursor.rest c hc

omit h in
theorem readElement_skipBlanks (level : Level) (r : Reader) :
    readElement level r.skipBlanks = readElement level r := by
  have hskip : r.skipBlanks.skipBlanks = r.skipBlanks :=
    congrArg (Reader.mk · r.nodes)
      (Cursor.skipBlanks_of_stops (stopsAt_dropWhile isBlank r.cursor.rest) _)
  simp only [readElement, hskip]

/-- The element at the reader; its layout starts with its first character. -/
theorem token_respaced {r s : Reader} {c : Char} {n : Node} (hc : r.cursor.peek? = some c)
    (hafter : (readElement level).after r = s) (hr : readElementAt level c r = .ok (n, s)) :
    (tokenLayout level inner r).head? = some (some c) ∧
      Respacing (tokenLayout level inner r) r s fun r' s' =>
        ∃ n', readElementAt level c r' = .ok (n', s') ∧ n'.unplaced = n.unplaced := by
  by_cases hopen : c = '('
  · subst hopen
    have hsees : r.sees '(' = true := decide_eq_true hc
    rw [tokenLayout, hsees, if_pos rfl]
    refine ⟨rfl, (readParentheses_respaced h hsees hr).imp ?_⟩
    rintro r' s' - - ⟨n', -, hn', hview⟩
    exact ⟨n', hn', hview⟩
  · have hsees : r.sees '(' = false := by
      refine decide_eq_false fun hpeek => hopen ?_
      exact Option.some.inj (hc.symm.trans hpeek)
    rw [tokenLayout, hsees, if_neg Bool.false_ne_true, hc, Option.any_some]
    cases hname : isNameStart c with
    | true =>
      rw [if_pos rfl]
      rw [readElementAt_nameStart hname] at hr
      refine ⟨?_, (readRoute_respaced h r n s hr).imp ?_⟩
      · obtain ⟨⟨first, t⟩, hfirst, -⟩ := Except.bind_ok hr
        rw [routeLayout, List.head?_append, segmentsLayout_head? h hc hname hfirst]
        rfl
      · rintro r' s' - - ⟨n', hn', hview⟩
        exact ⟨n', by rw [readElementAt_nameStart hname, hn'], hview⟩
    | false =>
      rw [if_neg Bool.false_ne_true, hafter]
      refine ⟨?_, leaf_respaced hc hopen hname hr⟩
      rw [kept_head? (h.forward.readElementAt hc hr).2, show r.cursor.rest.head? = some c from hc]
      rfl

theorem readElement_respaced :
    Probing.Respaced (elementLayout level inner) Node.unplaced (readElement level) := by
  refine ⟨fun r n s hr => ?_, fun r r' hr hr' => ?_⟩
  · cases hc : r.skipBlanks.cursor.peek? with
    | none =>
      simp only [readElement, hc] at hr
      cases hr
    | some c =>
      cases hends : endsElements c with
      | true =>
        simp only [readElement, hc, hends] at hr
        cases hr
      | false =>
        have hafter := Probing.after_eq ((readElement_skipBlanks level r).trans hr)
        rw [readElement_eq hc hends] at hr
        obtain ⟨⟨n, s⟩, hn, he⟩ := Except.map_ok hr
        cases he
        obtain ⟨hhead, htoken⟩ := token_respaced h hc hafter hn
        refine ((htoken.starts hhead).gap hhead (isBlank_of_skipBlanks hc)).imp ?_
        rintro r' s' - - ⟨hc', n', hn', hview⟩
        refine ⟨n', ?_, hview⟩
        rw [readElement_eq (Cursor.peek?_of_sees hc') hends, hn']
        rfl
  · unfold readElement at hr ⊢
    simp only at hr ⊢
    rw [hr'.peek?_skipBlanks]
    cases hc : r.skipBlanks.cursor.peek? with
    | none => rfl
    | some c =>
      rw [hc] at hr
      simp only at hr ⊢
      split at hr
      · rename_i hends
        rw [if_pos hends]
      · obtain ⟨_, -, he⟩ := Except.map_ok hr
        cases he

end

/-! ## Levels -/

/-- The layout of the elements one level further in. -/
def innerLayout (limit : Nat) : (room : Nat) → Reader → Layout
  | 0 => fun _ => []
  | room + 1 => elementsLayout limit room

theorem elementsLayout_eq (limit room : Nat) :
    elementsLayout limit room =
      manyLayout (readElement (levelAt limit room))
        (elementLayout (levelAt limit room) (innerLayout limit room)) := by
  cases room <;> rfl

/-- Elements are read the same from behind the blanks in front of them, if there are any
elements. -/
theorem readElements_skipBlanks (limit room : Nat) (r : Reader) (items : List Node) (s : Reader)
    (hitems : items ≠ []) :
    readElements limit room r = .ok (items, s) ↔
      readElements limit room r.skipBlanks = .ok (items, s) := by
  have hforward := (levelAt_forward limit room).readElement
  have hskip := readElement_skipBlanks (levelAt limit room) r
  rw [readElements_eq]
  cases hstep : readElement (levelAt limit room) r with
  | error e => rw [many_eq, many_eq, hskip, hstep]; rfl
  | ok found =>
    rw [hstep] at hskip
    cases found with
    | none =>
      rw [many_of_none hstep, many_of_none hskip]
      constructor <;> rintro ⟨⟩ <;> exact absurd rfl hitems
    | some x =>
      constructor <;> intro h
      · obtain ⟨rest, rfl, hrest⟩ := hforward.many_uncons hstep h
        exact hforward.many_cons hskip hrest
      · obtain ⟨rest, rfl, hrest⟩ := hforward.many_uncons hskip h
        exact hforward.many_cons hstep hrest

theorem Level.Respaced.readElements {limit room : Nat}
    (h : (levelAt limit room).Respaced (innerLayout limit room)) :
    Reading.Respaced (elementsLayout limit room) (List.map Node.unplaced)
      (readElements limit room) := by
  rw [elementsLayout_eq, readElements_eq]
  exact (readElement_respaced h).many h.forward.readElement

theorem levelAt_respaced (limit room : Nat) :
    (levelAt limit room).Respaced (innerLayout limit room) := by
  induction room with
  | zero =>
    refine ⟨levelAt_forward limit 0, fun h => ?_, fun h => ?_, nofun, nofun⟩
    · exact typeArguments?_found (levelAt_typeArguments limit 0 ▸ h)
    · exact typeArguments?_none (levelAt_typeArguments limit 0 ▸ h)
  | succ room ih =>
    refine ⟨levelAt_forward limit (room + 1), fun h => ?_, fun h => ?_, fun h => ?_, fun h => ?_⟩
    · exact typeArguments?_found (levelAt_typeArguments limit (room + 1) ▸ h)
    · exact typeArguments?_none (levelAt_typeArguments limit (room + 1) ▸ h)
    · cases h
      exact ih.readElements
    · cases h
      exact readElements_skipBlanks limit room

/-! ## Whole texts -/

/-- **Blanks between elements say nothing.** A text that is read is read to the same tree, offsets
apart and with as many nodes, if blanks are put in at any of the places of its layout. -/
theorem blanks_between_elements {limit nodes : Nat} {source : String} {root : Node}
    (h : Node.ofSource limit source = .ok (root, nodes)) :
    (sourceLayout limit source).text = source.toList ∧
    ∀ source' : String, Fills (sourceLayout limit source) source'.toList →
      ∃ root', Node.ofSource limit source' = .ok (root', nodes) ∧
        root'.unplaced = root.unplaced := by
  obtain ⟨items, r, hread, hend, hne, rfl, rfl⟩ := Node.ofSource_ok_iff.mp h
  have helements := (levelAt_respaced limit limit).readElements _ items r hread
  -- only blanks are left behind the last element
  have hgap : (gap r).text = r.cursor.rest := by
    have hnil : r.cursor.rest.dropWhile isBlank = [] := List.head?_eq_none_iff.mp hend
    have hsplit := List.takeWhile_append_dropWhile (p := isBlank) (l := r.cursor.rest)
    rw [hnil] at hsplit
    rw [← List.append_nil (gap r), text_gap]
    exact hsplit
  rw [sourceLayout, Reading.after_eq hread]
  refine ⟨?_, fun source' hfills => ?_⟩
  · rw [Layout.text_append, hgap]
    exact helements.text.symm
  · obtain ⟨filled, rest, hsource', hfilled, hrest⟩ := hfills.split
    have hloose : Loose r.cursor.rest rest := hgap ▸ hrest.loose
    obtain ⟨r', ⟨items', hread', hview⟩, rfl, hnodes⟩ :=
      helements.reads ⟨.start source', 0⟩ filled rest hfilled hloose hsource' rfl
    have hr' : r.Looser r' := ⟨hloose, hnodes⟩
    have hne' : items' ≠ [] := by
      rintro rfl
      exact hne (List.map_eq_nil_iff.mp hview.symm)
    refine ⟨.block (r'.skipBlanks.mark 0) items', ?_, ?_⟩
    · exact Node.ofSource_ok_iff.mpr
        ⟨items', r', hread', hr'.peek?_skipBlanks.trans hend, hne', rfl,
          congrArg (· + 1) hnodes.symm⟩
    · rw [Node.unplaced_block, Node.unplaced_block, hview, unplaced_mark hr'.skipBlanks.nodes]

/-- A call, an indexer and parentheses with blanks put in. What follows `a` looks like type
arguments at first. -/
theorem blanks_between_elements_call :
    (sourceLayout 2 "f(a<b,c[1])+ (x)").map (·.getD '.') = ".f(.a.<.b.,.c[.1.].).+ .(.x.).".toList ∧
    ∃ root root', Node.ofSource 2 "f(a<b,c[1])+ (x)" = .ok (root, 19) ∧
      Node.ofSource 2 " f( a <b\t,c[1 ] ) + \n(x ) " = .ok (root', 19) ∧
        root'.unplaced = root.unplaced := by
  refine ⟨by decide +kernel, ?_⟩
  have hcount : (Node.ofSource 2 "f(a<b,c[1])+ (x)").toOption.map (·.2) = some 19 := by
    decide +kernel
  cases hroot : Node.ofSource 2 "f(a<b,c[1])+ (x)" with
  | error e =>
    rw [hroot] at hcount
    cases hcount
  | ok read =>
    obtain ⟨root, nodes⟩ := read
    rw [hroot] at hcount
    cases hcount
    obtain ⟨root', hroot', hview⟩ :=
      (blanks_between_elements hroot).2 " f( a <b\t,c[1 ] ) + \n(x ) " (by decide +kernel)
    exact ⟨root, root', rfl, hroot', hview⟩

end Formula
