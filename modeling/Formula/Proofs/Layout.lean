import Formula.Proofs.LooseTypes

/-!
# Where blanks may be put in

`sourceLayout` is a text with the places marked where blanks may be put in without a change of what
is read: in front of each element of a list of elements, of each comma and closing bracket of
arguments and of each closing parenthesis, and at the end. It follows the readers: each reader has a
layout of the text that it reads.

`Fills m cs` if the text `cs` is the layout `m` with blanks at its places, as many as one likes.
-/

namespace Formula

/-- A text with marked places; `none` is such a place. -/
abbrev Layout := List (Option Char)

/-- The text without its marks. -/
def Layout.text (m : Layout) : List Char := m.filterMap id

/-- The text is the layout with blanks at its places. -/
inductive Fills : Layout → List Char → Prop
  | nil : Fills [] []
  | char (x : Char) {m : Layout} {cs : List Char} (h : Fills m cs) : Fills (some x :: m) (x :: cs)
  | place {blanks : List Char} (hblanks : Blank blanks) {m : Layout} {cs : List Char}
      (h : Fills m cs) :
    Fills (none :: m) (blanks ++ cs)

namespace Layout

theorem text_append (m m' : Layout) : text (m ++ m') = text m ++ text m' := List.filterMap_append

theorem text_map_some (cs : List Char) : text (cs.map some) = cs := by
  rw [text, List.filterMap_map]
  exact List.filterMap_some

end Layout

namespace Fills

variable {m m' : Layout} {cs : List Char}

theorem loose (h : Fills m cs) : Loose m.text cs := by
  induction h with
  | nil => exact .nil
  | char x _ ih => exact .keep x ih
  | place hblanks _ ih => exact .blanks hblanks ih

theorem split (h : Fills (m ++ m') cs) : ∃ u v, cs = u ++ v ∧ Fills m u ∧ Fills m' v := by
  induction m generalizing cs with
  | nil => exact ⟨[], cs, rfl, .nil, h⟩
  | cons x m ih =>
    cases h with
    | char x h =>
      obtain ⟨u, v, rfl, hu, hv⟩ := ih h
      exact ⟨x :: u, v, rfl, .char x hu, hv⟩
    | place hblanks h =>
      obtain ⟨u, v, rfl, hu, hv⟩ := ih h
      exact ⟨_ ++ u, v, (List.append_assoc _ _ _).symm, .place hblanks hu, hv⟩

theorem uncons {x : Char} (h : Fills (some x :: m) cs) : ∃ ds, cs = x :: ds ∧ Fills m ds := by
  cases h with
  | char _ h => exact ⟨_, rfl, h⟩

theorem starts {x : Char} (hm : m.head? = some (some x)) (h : Fills m cs) : ∃ ds, cs = x :: ds := by
  cases h with
  | nil => cases hm
  | char y h =>
    cases hm
    exact ⟨_, rfl⟩
  | place => cases hm

theorem eq_of_map_some {text : List Char} (h : Fills (text.map some) cs) : cs = text := by
  induction text generalizing cs with
  | nil =>
    cases h
    rfl
  | cons x text ih =>
    obtain ⟨ds, rfl, hds⟩ := uncons h
    rw [ih hds]

end Fills

/-- What can be left of a text when blanks in front of it are passed over. -/
def blankTails : List Char → List (List Char)
  | [] => [[]]
  | x :: cs => (x :: cs) :: if isBlank x then blankTails cs else []

private theorem mem_blankTails {cs ds : List Char} :
    ds ∈ blankTails cs ↔ ∃ blanks, Blank blanks ∧ cs = blanks ++ ds := by
  induction cs with
  | nil =>
    rw [blankTails, List.mem_singleton]
    constructor
    · rintro rfl
      exact ⟨[], List.forall_mem_nil _, rfl⟩
    · rintro ⟨blanks, -, h⟩
      exact (List.append_eq_nil_iff.mp h.symm).2
  | cons x cs ih =>
    rw [blankTails, List.mem_cons]
    constructor
    · rintro (rfl | h)
      · exact ⟨[], List.forall_mem_nil _, rfl⟩
      · cases hx : isBlank x with
        | false => simp [hx] at h
        | true =>
          rw [hx, if_pos rfl] at h
          obtain ⟨blanks, hblanks, rfl⟩ := ih.mp h
          exact ⟨x :: blanks, List.forall_mem_cons.mpr ⟨hx, hblanks⟩, rfl⟩
    · rintro ⟨blanks, hblanks, h⟩
      cases blanks with
      | nil => exact .inl h.symm
      | cons y blanks =>
        obtain ⟨rfl, rfl⟩ := List.cons.inj h
        obtain ⟨hx, hblanks⟩ := List.forall_mem_cons.mp hblanks
        rw [if_pos hx]
        exact .inr (ih.mpr ⟨blanks, hblanks, rfl⟩)

/-- Whether the text is the layout with blanks at its places. -/
def Layout.fits : Layout → List Char → Bool
  | [], cs => cs.isEmpty
  | some x :: m, cs => decide (cs.head? = some x) && fits m cs.tail
  | none :: m, cs => (blankTails cs).any (fits m)

theorem Layout.fits_iff {m : Layout} {cs : List Char} : m.fits cs = true ↔ Fills m cs := by
  induction m generalizing cs with
  | nil =>
    rw [fits, List.isEmpty_iff]
    constructor
    · rintro rfl
      exact .nil
    · rintro ⟨⟩
      rfl
  | cons x m ih =>
    cases x with
    | none =>
      rw [fits, List.any_eq_true]
      constructor
      · rintro ⟨ds, hds, hm⟩
        obtain ⟨blanks, hblanks, rfl⟩ := mem_blankTails.mp hds
        exact .place hblanks (ih.mp hm)
      · intro h
        cases h with
        | place hblanks h => exact ⟨_, mem_blankTails.mpr ⟨_, hblanks, rfl⟩, ih.mpr h⟩
    | some x =>
      rw [fits, Bool.and_eq_true, decide_eq_true_iff]
      constructor
      · rintro ⟨hx, hm⟩
        rw [← List.cons_head?_tail hx]
        exact .char x (ih.mp hm)
      · intro h
        obtain ⟨ds, rfl, hds⟩ := h.uncons
        exact ⟨rfl, ih.mpr hds⟩

instance Fills.decidable (m : Layout) (cs : List Char) : Decidable (Fills m cs) :=
  decidable_of_iff _ Layout.fits_iff

/-! ## Layouts of what is read -/

/-- The states in which a step that is repeated finds something. -/
def visits {ε σ α : Type} (size : σ → Nat) (step : σ → Except ε (Option (α × σ)))
    (s : σ) : List σ :=
  match step s with
  | .error _ => []
  | .ok none => []
  | .ok (some (_, t)) => if size t < size s then s :: visits size step t else [s]
termination_by size s

/-- The layout of what a step finds that is repeated. -/
def manyLayout {α : Type} (step : Probing α) (layout : Reader → Layout) (r : Reader) : Layout :=
  (visits Reader.size step r).flatMap layout

/-- The reader after something is read. -/
def Reading.after {α : Type} (read : Reading α) (r : Reader) : Reader :=
  (read r).toOption.elim r (·.2)

/-- The reader after something is found. -/
def Probing.after {α : Type} (step : Probing α) (r : Reader) : Reader :=
  (step r).toOption.join.elim r (·.2)

/-- The text from one rest to another, without any place. -/
def kept (cs ds : List Char) : Layout := (cs.take (cs.length - ds.length)).map some

/-- Blanks, and a place right in front of what follows them. -/
def gap (r : Reader) : Layout := (r.cursor.rest.takeWhile isBlank).map some ++ [none]

theorem kept_eq {cs ds used : List Char} (h : cs = used ++ ds) : kept cs ds = used.map some := by
  rw [kept, h, List.length_append, Nat.add_sub_cancel, List.take_left]

theorem kept_head? {cs ds : List Char} (h : ds.length < cs.length) :
    (kept cs ds).head? = cs.head?.map some := by
  cases cs with
  | nil => cases h
  | cons x cs =>
    have hpos : (x :: cs).length - ds.length = cs.length - ds.length + 1 := by
      rw [List.length_cons] at h ⊢
      omega
    rw [kept, hpos]
    rfl

theorem text_gap (r : Reader) (m : Layout) :
    (gap r ++ m).text = r.cursor.rest.takeWhile isBlank ++ m.text := by
  rw [gap, List.append_assoc, Layout.text_append, Layout.text_map_some]
  rfl

/-- A gap is filled with blanks. -/
theorem Fills.gap {r : Reader} {m : Layout} {cs : List Char} (h : Fills (gap r ++ m) cs) :
    ∃ blanks more, cs = blanks ++ more ∧ Blank blanks ∧ Fills m more := by
  obtain ⟨u, more, rfl, hu, hmore⟩ := h.split
  obtain ⟨old, new, rfl, hold, hnew⟩ := hu.split
  rw [hold.eq_of_map_some]
  cases hnew with
  | place hblanks hnil =>
    cases hnil
    refine ⟨_, more, rfl, ?_, hmore⟩
    rw [List.append_nil]
    exact List.forall_mem_append.mpr ⟨all_takeWhile, hblanks⟩

section

variable (level : Level) (inner : Reader → Layout)

/-- Reads the elements one level further in. -/
def Level.elements : Reading (List Node) := fun r => level.enter >>= fun read => read r

/-- The layout of a further argument; `inner` is that of the elements one level further in. -/
def nextArgumentLayout (r : Reader) : Layout := gap r ++ some ',' :: inner r.skipBlanks.next

/-- The layout of arguments up to the bracket `close`. -/
def argumentsLayout (close : Char) (r : Reader) : Layout :=
  if r.skipBlanks.sees close then gap r ++ [some close]
  else
    let first := (readArgument level.elements).after r.skipBlanks
    let last := Reading.after (many Reader.size (readNextArgument level.elements)) first
    inner r ++ (manyLayout (readNextArgument level.elements) (nextArgumentLayout inner) first ++
      (gap last ++ [some close]))

/-- The layout of an indexer. -/
def indexerLayout (r : Reader) : Layout := some '[' :: argumentsLayout level inner ']' r.next

/-- The layout of a name with its type arguments and its arguments. There is no place in the first
two. -/
def namedLayout (r : Reader) : Layout :=
  let name := (r.cursor.span isNameChar).2
  let cursor := (level.typeArguments name).toOption.elim name (·.2)
  kept r.cursor.rest cursor.rest ++
    if cursor.sees '(' then some '(' :: argumentsLayout level inner ')' ⟨cursor.next, r.nodes⟩
    else []

/-- The layout of a name and the indexers right after it. -/
def segmentsLayout (r : Reader) : Layout :=
  namedLayout level inner r ++ manyLayout (readIndexer level) (indexerLayout level inner)
    ((readNamed level).after r)

/-- The layout of further segments. -/
def nextSegmentsLayout (r : Reader) : Layout := some '.' :: segmentsLayout level inner r.next

/-- The layout of a dotted chain. -/
def routeLayout (r : Reader) : Layout :=
  segmentsLayout level inner r ++
    manyLayout (readNextSegments level) (nextSegmentsLayout level inner)
    ((readSegments level).after r)

/-- The layout of elements between parentheses. -/
def parenthesesLayout (r : Reader) : Layout :=
  some '(' :: (inner r.next ++ (gap (level.elements.after r.next) ++ [some ')']))

/-- The layout of the element at the reader. A literal, an operator or a stray has no place in
it. -/
def tokenLayout (r : Reader) : Layout :=
  if r.sees '(' then parenthesesLayout level inner r
  else if r.cursor.peek?.any isNameStart then routeLayout level inner r
  else kept r.cursor.rest ((readElement level).after r).cursor.rest

/-- The layout of the next element and of the blanks in front of it. -/
def elementLayout (r : Reader) : Layout := gap r ++ tokenLayout level inner r.skipBlanks

end

/-- The layout of a list of elements, with `room` levels of nesting left of `limit`. -/
def elementsLayout (limit : Nat) : (room : Nat) → Reader → Layout
  | 0 => manyLayout (readElement (levelAt limit 0)) (elementLayout (levelAt limit 0) fun _ => [])
  | room + 1 =>
    manyLayout (readElement (levelAt limit (room + 1)))
      (elementLayout (levelAt limit (room + 1)) (elementsLayout limit room))

/-- The layout of a whole text. -/
def sourceLayout (limit : Nat) (source : String) : Layout :=
  elementsLayout limit limit ⟨.start source, 0⟩ ++
    gap ((readElements limit limit).after ⟨.start source, 0⟩)

end Formula
