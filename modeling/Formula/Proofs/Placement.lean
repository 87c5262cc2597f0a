import Formula.Proofs.Offsets
import Formula.Proofs.ReadingProgress

/-!
# Where the elements of a text stand

Offsets are those of cursors, and names and raw texts are what stands before a cursor.
`T offset text` says of a text where it stands; if it holds wherever a cursor may come
(`Cursor.Within`), then it holds of all elements that are read, and parse errors are reported at
such offsets (`Node.ofSource_stands`).
-/

namespace Formula

namespace Except

variable {ε α β : Type} {P : α → Prop} {Q : β → Prop} {E : ε → Prop} {x : Except ε α}

/-- A result has `P`, and an error has `E`. -/
def Ends (P : α → Prop) (E : ε → Prop) : Except ε α → Prop
  | .ok a => P a
  | .error e => E e

namespace Ends

theorem bind {f : α → Except ε β} (h : Ends P E x) (hf : ∀ a, P a → Ends Q E (f a)) :
    Ends Q E (x >>= f) := by
  cases x with
  | error e => exact h
  | ok a => exact hf a h

theorem map {f : α → β} (h : Ends P E x) (hf : ∀ a, P a → Q (f a)) : Ends Q E (x.map f) := by
  cases x with
  | error e => exact h
  | ok a => exact hf a h

end Ends

end Except

variable {T : Nat → List Char → Prop}

/-! ## Cursors -/

/-- Wherever a cursor may come from `c`, the texts that begin there have `T`. -/
def Cursor.Within (T : Nat → List Char → Prop) (c : Cursor) : Prop :=
  ∀ d, c.Reaches d → ∀ text, text <+: d.rest → T d.offset text

namespace Cursor.Within

variable {c d : Cursor}

theorem text (h : c.Within T) {text : List Char} (ht : text <+: c.rest) : T c.offset text :=
  h c (.refl c) text ht

theorem offset (h : c.Within T) : T c.offset [] := h.text List.nil_prefix

theorem reaches (h : c.Within T) (hd : c.Reaches d) : d.Within T := fun e he => h e (hd.trans he)

theorem span (h : c.Within T) (p : Char → Bool) : (c.span p).2.Within T :=
  h.reaches (c.reaches_span p)

theorem skipBlanks (h : c.Within T) : c.skipBlanks.Within T := h.reaches c.reaches_skipBlanks

theorem next (h : c.Within T) : c.next.Within T := h.reaches c.reaches_next

/-- One byte before the cursor after a bracket stands the bracket. -/
theorem opening (h : c.Within T) {x : Char} (hx : x.utf8Size = 1) (hc : c.sees x = true) :
    T (c.next.offset - 1) [] := by
  have hoffset := h.offset
  obtain ⟨rest, offset⟩ := c
  cases rest with
  | nil => cases hc
  | cons y rest =>
    cases Cursor.peek?_of_sees hc
    show T (offset + x.utf8Size - 1) []
    rwa [hx, Nat.add_sub_cancel]

end Cursor.Within

/-! ## Elements -/

/-- The text that an element was made of: a name, or what is kept as raw text. -/
def Element.text : Element → List Char
  | .node (.unresolved _ raw) => raw.toList
  | .segment s => (s.name?.getD "").toList
  | .node _ => []

/-- The symbol of an operator. -/
def Element.symbol : Element → List Char
  | .node (.operator _ op) => [op.symbol]
  | _ => []

/-- The marks of an element, its text and its symbol stand where `T` says. -/
structure Element.Stands (T : Nat → List Char → Prop) (e : Element) : Prop where
  marks : ∀ mark ∈ e.marks, T mark.offset []
  text : T e.mark.offset e.text
  symbol : T e.mark.offset e.symbol

/-- All elements of a tree stand where `T` says. -/
def Node.Stands (T : Nat → List Char → Prop) (n : Node) : Prop := ∀ e ∈ n.elements, e.Stands T

/-- A segment and the elements of its arguments stand where `T` says. -/
def Segment.Stands (T : Nat → List Char → Prop) (segment : Segment Node) : Prop :=
  (Element.segment segment).Stands T ∧ ∀ n ∈ segment.args, n.Stands T

namespace Node

theorem Stands.offsetsIn {n : Node} (h : n.Stands T) : n.OffsetsIn (T · []) :=
  fun e he => (h e he).marks

theorem stands_block {mark : Mark} (hmark : T mark.offset []) {items : List Node}
    (h : ∀ n ∈ items, n.Stands T) : (Node.block mark items).Stands T :=
  forall_elements_block.mpr ⟨⟨List.forall_mem_singleton.mpr hmark, hmark, hmark⟩, h⟩

theorem stands_route {mark : Mark} (hmark : T mark.offset []) (head : RouteHead)
    {segments : List (Segment Node)} (h : ∀ segment ∈ segments, segment.Stands T) :
    (Node.route mark head segments).Stands T :=
  forall_elements_route.mpr ⟨⟨List.forall_mem_singleton.mpr hmark, hmark, hmark⟩, h⟩

theorem stands_constant {mark : Mark} (hmark : T mark.offset []) (v : Value) :
    (Node.constant mark v).Stands T :=
  List.forall_mem_singleton.mpr ⟨List.forall_mem_singleton.mpr hmark, hmark, hmark⟩

theorem stands_operator {mark : Mark} {op : Operator} (hmark : T mark.offset [])
    (h : T mark.offset [op.symbol]) :
    (Node.operator mark op).Stands T :=
  List.forall_mem_singleton.mpr ⟨List.forall_mem_singleton.mpr hmark, hmark, h⟩

theorem stands_unresolved {mark : Mark} {raw : List Char} (hmark : T mark.offset [])
    (h : T mark.offset raw) : (Node.unresolved mark (String.ofList raw)).Stands T := by
  refine List.forall_mem_singleton.mpr ⟨List.forall_mem_singleton.mpr hmark, ?_, hmark⟩
  show T mark.offset (String.ofList raw).toList
  rwa [String.toList_ofList]

end Node

theorem Segment.stands_named {segment : Segment Node} {name : List Char}
    (hname : segment.name? = some (String.ofList name)) (hmark : T segment.mark.offset [])
    (h : T segment.mark.offset name) (hargs : ∀ n ∈ segment.args, n.Stands T) :
    segment.Stands T := by
  refine ⟨⟨List.forall_mem_singleton.mpr hmark, ?_, hmark⟩, hargs⟩
  show T segment.mark.offset (segment.name?.getD "").toList
  rwa [hname, Option.getD_some, String.toList_ofList]

theorem Segment.stands_indexer {mark : Mark} (hmark : T mark.offset []) {args : List Node}
    (h : ∀ n ∈ args, n.Stands T) : (Segment.indexer mark args).Stands T :=
  ⟨⟨List.forall_mem_singleton.mpr hmark, hmark, hmark⟩, h⟩

/-! ## Literals -/

theorem readStringBody_reports {opening offset : Nat} {cs : List Char} (hopening : T opening [])
    (h : Cursor.Within T ⟨cs, offset⟩) {e : BuildError}
    (he : readStringBody opening offset cs = .error e) :
    e.ReportedIn (T · []) := by
  fun_induction readStringBody opening offset cs with
  | case1 =>
    cases he
    exact reportedIn_parse hopening
  | case2 => cases he
  | case3 =>
    cases he
    exact reportedIn_parse hopening
  | case4 offset e rest hnone =>
    cases he
    exact reportedIn_parse h.next.offset
  | case5 offset e rest x hx e' hbody hquote ih =>
    cases he
    exact ih (h.reaches (reaches_escape hx rest offset)) hbody
  | case6 => cases he
  | case7 offset c rest hquote hslash e' hbody ih =>
    cases he
    exact ih h.next hbody
  | case8 => cases he

theorem readString_stands {c : Cursor} (hc : c.peek? = some '"') (h : c.Within T) :
    Except.Ends (fun x => x.2.Within T) (BuildError.ReportedIn (T · [])) (readString c) := by
  cases hread : readString c with
  | ok x =>
    obtain ⟨v, d⟩ := x
    exact h.next.reaches (readString_reaches hc hread)
  | error e =>
    obtain ⟨rest, offset⟩ := c
    cases rest with
    | nil => cases hc
    | cons quote rest =>
      cases hc
      unfold readString at hread
      split at hread
      · rename_i hbody
        cases hread
        exact readStringBody_reports h.offset h.next hbody
      · cases hread

/-- The raw text of a numeral starts where the cursor stands. -/
theorem readNumber_raw {c : Cursor} {raw : String} (h : (readNumber c).1 = .ok (.unresolved raw)) :
    ∃ text, raw = String.ofList text ∧ text <+: c.rest := by
  refine ⟨c.rest.take (c.rest.length - ((takeNumber c.rest).2.dropWhile isNameChar).length), ?_,
    List.take_prefix _ _⟩
  unfold readNumber at h
  obtain ⟨value, -, hlexeme⟩ := Except.map_ok h
  cases value with
  | none =>
    cases hlexeme
    rfl
  | some v =>
    simp only at hlexeme
    split at hlexeme
    · cases hlexeme
    · cases hlexeme
      rfl

/-- A run of characters behind the next one, together with that one. -/
theorem readStray_raw {c : Cursor} :
    ∃ text, (readStray c).1 = String.ofList text ∧ text <+: c.rest := by
  refine ⟨_, rfl, ?_⟩
  obtain ⟨rest, offset⟩ := c
  cases rest with
  | nil => exact List.nil_prefix
  | cons x rest => exact (List.prefix_cons_inj x).mpr (List.takeWhile_prefix _)

theorem Operator.symbol_of_ofChar? {c : Char} {op : Operator} (h : Operator.ofChar? c = some op) :
    c = op.symbol := by
  unfold Operator.ofChar? at h
  split at h <;> cases h <;> rfl

/-! ## Readers -/

/-- What is read has `P`, from a reader within `T` to a reader within `T`; and parse errors are
reported at offsets with `T`. -/
def Reading.Stands {α : Type} (T : Nat → List Char → Prop) (P : α → Prop)
    (read : Reading α) : Prop :=
  ∀ r : Reader, r.cursor.Within T →
    Except.Ends (fun x => P x.1 ∧ x.2.cursor.Within T) (BuildError.ReportedIn (T · [])) (read r)

/-- What is found has `P`, as in `Reading.Stands`. -/
def Probing.Stands {α : Type} (T : Nat → List Char → Prop) (P : α → Prop)
    (read : Probing α) : Prop :=
  ∀ r : Reader, r.cursor.Within T →
    Except.Ends (fun found => ∀ x ∈ found, P x.1 ∧ x.2.cursor.Within T)
    (BuildError.ReportedIn (T · [])) (read r)

theorem Probing.Stands.many {α : Type} {P : α → Prop} {step : Probing α} (h : step.Stands T P) :
    Reading.Stands T (fun as => ∀ a ∈ as, P a) (Formula.many Reader.size step) := by
  intro r hr
  fun_induction Formula.many Reader.size step r with
  | case1 r e he =>
    have hstep := h r hr
    rwa [he] at hstep
  | case2 r hnone => exact ⟨by simp, hr⟩
  | case3 r a t hsome hlt e hmore ih =>
    have hstep := h r hr
    rw [hsome] at hstep
    have hrest := ih (hstep (a, t) rfl).2
    rwa [hmore] at hrest
  | case4 r a t hsome hlt as u hmore ih =>
    have hstep := h r hr
    rw [hsome] at hstep
    obtain ⟨ha, ht⟩ := hstep (a, t) rfl
    have hrest := ih ht
    rw [hmore] at hrest
    exact ⟨List.forall_mem_cons.mpr ⟨ha, hrest.1⟩, hrest.2⟩
  | case5 r a t hsome hlt =>
    have hstep := h r hr
    rw [hsome] at hstep
    obtain ⟨ha, ht⟩ := hstep (a, t) rfl
    exact ⟨List.forall_mem_singleton.mpr ha, ht⟩

/-- A reading step that is made if something announces it. -/
theorem Reading.Stands.some {α : Type} {P : α → Prop} {read : Reading α}
    (h : read.Stands T P) {r : Reader} (hr : r.cursor.Within T) :
    Except.Ends (fun found => ∀ x ∈ found, P x.1 ∧ x.2.cursor.Within T)
      (BuildError.ReportedIn (T · [])) ((read r).map Option.some) := by
  refine (h r hr).map fun x hx => ?_
  rintro _ ⟨⟩
  exact hx

/-- Nothing is found. -/
theorem ends_none {α : Type} {P : α × Reader → Prop} {E : BuildError → Prop} :
    Except.Ends (fun found => ∀ x ∈ found, P x) E (.ok none) := by
  show ∀ x ∈ none, P x
  simp

/-- Readers of a level read what stands where `T` says. -/
structure Level.Stands (T : Nat → List Char → Prop) (level : Level) : Prop where
  typeArguments {c : Cursor} : c.Within T →
    Except.Ends (fun x => x.2.Within T) (BuildError.ReportedIn (T · [])) (level.typeArguments c)
  enter : Except.Ends (fun inner => inner.Stands T (fun ns => ∀ n ∈ ns, n.Stands T))
    (BuildError.ReportedIn (T · [])) level.enter

namespace Level.Stands

variable {level : Level}

theorem readArgument {inner : Reading (List Node)}
    (h : inner.Stands T (fun ns => ∀ n ∈ ns, n.Stands T)) :
    Reading.Stands T (Node.Stands T) (readArgument inner) := by
  intro r hr
  refine (h r hr).bind ?_
  rintro ⟨items, r₁⟩ ⟨hitems, hr₁⟩
  dsimp only
  split
  · exact reportedIn_parse hr.offset
  · exact ⟨Node.stands_block hr.offset hitems, hr₁⟩

theorem readNextArgument {inner : Reading (List Node)}
    (h : inner.Stands T (fun ns => ∀ n ∈ ns, n.Stands T)) :
    Probing.Stands T (Node.Stands T) (readNextArgument inner) := by
  intro r hr
  unfold Formula.readNextArgument
  split
  · exact (readArgument h).some hr.skipBlanks.next
  · exact ends_none

variable (h : level.Stands T)

include h

/-- The opening bracket stands one byte further back. -/
theorem readArguments (close : Char) {r : Reader} (hr : r.cursor.Within T)
    (hopening : T (r.cursor.offset - 1) []) :
    Except.Ends (fun x => (∀ n ∈ x.1, n.Stands T) ∧ x.2.cursor.Within T)
      (BuildError.ReportedIn (T · [])) (readArguments level close r) := by
  refine h.enter.bind fun inner hinner => ?_
  have hblanks : r.skipBlanks.cursor.Within T := hr.skipBlanks
  dsimp only
  split
  · exact ⟨by simp, hblanks.next⟩
  · refine (readArgument hinner _ hblanks).bind ?_
    rintro ⟨first, r₁⟩ ⟨hfirst, hr₁⟩
    refine ((readNextArgument hinner).many r₁ hr₁).bind ?_
    rintro ⟨more, r₂⟩ ⟨hmore, hr₂⟩
    dsimp only
    split
    · exact ⟨List.forall_mem_cons.mpr ⟨hfirst, hmore⟩, hr₂.skipBlanks.next⟩
    · exact reportedIn_parse hopening

theorem readIndexer : Probing.Stands T (Segment.Stands T) (readIndexer level) := by
  intro r hr
  unfold Formula.readIndexer
  split
  · rename_i hbracket
    refine (h.readArguments ']' (r := r.next) hr.next (hr.opening rfl hbracket)).bind ?_
    rintro ⟨args, r₁⟩ ⟨hargs, hr₁⟩
    dsimp only
    split
    · exact reportedIn_parse hr.offset
    · rintro _ ⟨⟩
      exact ⟨Segment.stands_indexer hr.offset hargs, hr₁⟩
  · exact ends_none

theorem readNamed : Reading.Stands T (Segment.Stands T) (readNamed level) := by
  intro r hr
  refine (h.typeArguments (hr.span isNameChar)).bind ?_
  rintro ⟨generics, cursor⟩ hcursor
  have hname : T r.cursor.offset (r.cursor.rest.takeWhile isNameChar) :=
    hr.text (List.takeWhile_prefix _)
  dsimp only
  split
  · rename_i hbracket
    refine (h.readArguments ')' (r := Reader.next ⟨cursor, r.nodes⟩) hcursor.next
      (hcursor.opening rfl hbracket)).bind ?_
    rintro ⟨args, r₁⟩ ⟨hargs, hr₁⟩
    exact ⟨Segment.stands_named rfl hr.offset hname hargs, hr₁⟩
  · exact ⟨Segment.stands_named rfl hr.offset hname (by simp [Segment.args]), hcursor⟩

theorem readSegments :
    Reading.Stands T (fun segments => ∀ s ∈ segments, s.Stands T) (readSegments level) := by
  intro r hr
  refine (h.readNamed r hr).bind ?_
  rintro ⟨named, r₁⟩ ⟨hnamed, hr₁⟩
  refine (h.readIndexer.many r₁ hr₁).bind ?_
  rintro ⟨indexers, r₂⟩ ⟨hindexers, hr₂⟩
  exact ⟨List.forall_mem_cons.mpr ⟨hnamed, hindexers⟩, hr₂⟩

theorem readNextSegments :
    Probing.Stands T (fun segments => ∀ s ∈ segments, s.Stands T) (readNextSegments level) := by
  intro r hr
  unfold Formula.readNextSegments
  split
  · exact h.readSegments.some hr.next
  · exact ends_none

theorem readRoute : Reading.Stands T (Node.Stands T) (readRoute level) := by
  intro r hr
  refine (h.readSegments r hr).bind ?_
  rintro ⟨first, r₁⟩ ⟨hfirst, hr₁⟩
  refine (h.readNextSegments.many r₁ hr₁).bind ?_
  rintro ⟨more, r₂⟩ ⟨hmore, hr₂⟩
  refine ⟨Node.stands_route hr.offset _ (List.forall_mem_append.mpr ⟨hfirst, fun s hs => ?_⟩), hr₂⟩
  obtain ⟨part, hpart, hs⟩ := List.mem_flatten.mp hs
  exact hmore part hpart s hs

theorem readParentheses : Reading.Stands T (Node.Stands T) (readParentheses level) := by
  intro r hr
  refine h.enter.bind fun inner hinner => (hinner r.next hr.next).bind ?_
  rintro ⟨items, r₁⟩ ⟨hitems, hr₁⟩
  dsimp only
  split
  · exact reportedIn_parse hr.offset
  · split
    · exact reportedIn_parse hr.offset
    · exact ⟨Node.stands_block hr.offset hitems, hr₁.skipBlanks.next⟩

theorem readElementAt {r : Reader} {c : Char} (hc : r.cursor.peek? = some c)
    (hr : r.cursor.Within T) :
    Except.Ends (fun x => x.1.Stands T ∧ x.2.cursor.Within T) (BuildError.ReportedIn (T · []))
      (readElementAt level c r) := by
  unfold Formula.readElementAt
  dsimp only
  split
  · exact h.readParentheses r hr
  split
  · rename_i hquote
    have hstring := readString_stands (hquote ▸ hc) hr
    split
    · rename_i hread
      rwa [hread] at hstring
    · rename_i hread
      rw [hread] at hstring
      exact ⟨Node.stands_constant hr.offset _, hstring⟩
  split
  · split
    · exact reportedIn_of_not_parse rfl
    · rename_i lexeme hlexeme
      refine ⟨?_, hr.reaches (readNumber_reaches hc).1⟩
      cases lexeme with
      | constant v => exact Node.stands_constant hr.offset _
      | unresolved raw =>
        obtain ⟨text, rfl, htext⟩ := readNumber_raw hlexeme
        exact Node.stands_unresolved hr.offset (hr.text htext)
  split
  · exact h.readRoute r hr
  split
  · rename_i op hop
    have hsymbol : [op.symbol] <+: r.cursor.rest := by
      rw [← Operator.symbol_of_ofChar? hop]
      obtain ⟨rest, hrest⟩ := List.head?_eq_some_iff.mp hc
      exact ⟨rest, hrest.symm⟩
    exact ⟨Node.stands_operator hr.offset (hr.text hsymbol), hr.next⟩
  · obtain ⟨text, htext, hprefix⟩ := @readStray_raw r.cursor
    rw [htext]
    exact ⟨Node.stands_unresolved hr.offset (hr.text hprefix), hr.next.span isStray⟩

theorem readElement : Probing.Stands T (Node.Stands T) (readElement level) := by
  intro r hr
  unfold Formula.readElement
  dsimp only
  split
  · exact ends_none
  · rename_i c hc
    split
    · exact ends_none
    · refine (h.readElementAt hc hr.skipBlanks).map fun x hx => ?_
      rintro _ ⟨⟩
      exact hx

end Level.Stands

theorem typeArguments?_stands (limit room : Nat) {c : Cursor} (hc : c.Within T) :
    Except.Ends (fun x => x.2.Within T) (BuildError.ReportedIn (T · []))
      (typeArguments? limit room c) := by
  cases h : typeArguments? limit room c with
  | ok x => exact hc.reaches (typeArguments?_reaches h)
  | error e =>
    unfold typeArguments? at h
    split at h
    · split at h
      · cases h
      · cases h
      · cases h
        exact reportedIn_of_not_parse rfl
    · cases h

theorem levelAt_stands (limit room : Nat) : (levelAt limit room).Stands T := by
  induction room with
  | zero =>
    refine ⟨fun hc => ?_, reportedIn_of_not_parse rfl⟩
    rw [levelAt_typeArguments]
    exact typeArguments?_stands limit 0 hc
  | succ room ih =>
    refine ⟨fun hc => ?_, ?_⟩
    · rw [levelAt_typeArguments]
      exact typeArguments?_stands limit (room + 1) hc
    · show (readElements limit room).Stands T fun ns => ∀ n ∈ ns, n.Stands T
      rw [readElements_eq]
      exact ih.readElement.many

/-- **The tree of a text** stands where the text says, and so do the faults that are found in it. -/
theorem Node.ofSource_stands {source : String} (h : (Cursor.start source).Within T) (limit : Nat) :
    Except.Ends (fun x => x.1.Stands T) (BuildError.ReportedIn (T · []))
      (Node.ofSource limit source) := by
  have hread := (levelAt_stands limit limit).readElement.many ⟨.start source, 0⟩ h
  rw [← readElements_eq] at hread
  refine hread.bind ?_
  rintro ⟨items, r⟩ ⟨hitems, hr⟩
  dsimp only
  split
  · exact reportedIn_parse hr.skipBlanks.offset
  · split
    · exact reportedIn_parse h.offset
    · exact Node.stands_block h.offset hitems

end Formula
