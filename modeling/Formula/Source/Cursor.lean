/-!
# Positions in source text

A cursor is the text that is left to read, with the number of bytes read so far. Offsets always
fall between characters, because a cursor moves by whole characters.

`many` repeats a reading step. It needs no counter: it goes on only while the text gets shorter.
-/

namespace Formula

/-- The text left to read and the byte offset it starts at. -/
structure Cursor where
  rest : List Char
  offset : Nat
deriving Repr, DecidableEq

/-- Number of bytes of a text in UTF-8. -/
def byteLength (cs : List Char) : Nat := cs.foldr (fun c n => c.utf8Size + n) 0

/-! ## Classes of characters -/

/-- The blanks between the elements of an expression. -/
def isBlank (c : Char) : Bool := c = ' ' || c = '\t' || c = '\n' || c = '\x0c' || c = '\r'

/-- The characters a name starts with; only those of ASCII count. -/
def isNameStart (c : Char) : Bool := c.isAlpha || c = '_'

/-- The characters a name goes on with. -/
def isNameChar (c : Char) : Bool := c.isAlphanum || c = '_'

/-- The characters that open, close, join or separate elements. -/
def isStructural (c : Char) : Bool := "()[]\x7b\x7d,.\"+-*/%^|".toList.contains c

namespace Cursor

/-- The start of a text. -/
def start (source : String) : Cursor := ⟨source.toList, 0⟩

/-- The next character, if any. -/
def peek? (c : Cursor) : Option Char := c.rest.head?

/-- Whether the next character is `x`. -/
def sees (c : Cursor) (x : Char) : Bool := c.peek? = some x

/-- The cursor after the next character. -/
def next (c : Cursor) : Cursor :=
  match c.rest with
  | [] => c
  | x :: rest => ⟨rest, c.offset + x.utf8Size⟩

/-- The longest run of characters of a class, and the cursor after it. -/
def span (p : Char → Bool) (c : Cursor) : List Char × Cursor :=
  let run := c.rest.takeWhile p
  (run, ⟨c.rest.dropWhile p, c.offset + byteLength run⟩)

/-- The cursor after all blanks. -/
def skipBlanks (c : Cursor) : Cursor := (c.span isBlank).2

/-- The name at the cursor. -/
def name? (c : Cursor) : Option (String × Cursor) :=
  match c.peek? with
  | some x =>
    if isNameStart x then
      let (run, after) := c.span isNameChar
      some (String.ofList run, after)
    else none
  | none => none

/-- Whether a dot and a name follow, without any blank. -/
def seesDotName (c : Cursor) : Bool :=
  match c.rest with
  | dot :: x :: _ => dot = '.' && isNameStart x
  | _ => false

end Cursor

/-! ## Repetition -/

/-- Repeats a step for as long as it finds something and leaves less to read; `size` measures what
is left. -/
def many {ε σ α : Type} (size : σ → Nat) (step : σ → Except ε (Option (α × σ))) (s : σ) :
    Except ε (List α × σ) :=
  match step s with
  | .error e => .error e
  | .ok none => .ok ([], s)
  | .ok (some (a, t)) =>
    if size t < size s then
      match many size step t with
      | .error e => .error e
      | .ok (as, u) => .ok (a :: as, u)
    else .ok ([a], t)
termination_by size s

end Formula
