import Formula.Node
import Formula.Source.Literal
import Formula.Source.TypeArguments

/-!
# Reading expressions

From source text to a tree of flat blocks. Operators are not ranked here: a block is the list of
its elements from left to right.

The bound on nesting is also what the reader recurses on. Reading at one level uses a `Level`: how
to read type arguments there, and how to read the elements one level further in, if the bound still
allows that.

* `readElements`: the elements up to a closing bracket, a comma or the end.
* `Node.ofSource`: the whole text as one block.
-/

namespace Formula

/-- Where reading stands, and how many nodes there are. -/
structure Reader where
  cursor : Cursor
  nodes : Nat
deriving Repr, DecidableEq

namespace Reader

/-- The number of characters left. -/
def size (r : Reader) : Nat := r.cursor.rest.length

/-- Whether the next character is `x`. -/
def sees (r : Reader) (x : Char) : Bool := r.cursor.sees x

/-- The reader after the next character. -/
def next (r : Reader) : Reader := { r with cursor := r.cursor.next }

/-- The reader after all blanks. -/
def skipBlanks (r : Reader) : Reader := { r with cursor := r.cursor.skipBlanks }

/-- The mark of a new node. -/
def mark (r : Reader) (offset : Nat) : Mark := ⟨r.nodes, offset⟩

/-- The reader after a node is made, with the cursor where that node ends. -/
def made (r : Reader) (cursor : Cursor) : Reader := ⟨cursor, r.nodes + 1⟩

end Reader

/-- Reads something from where a reader stands. -/
abbrev Reading (α : Type) := Reader → Except BuildError (α × Reader)

/-- Reads something that may not be there. -/
abbrev Probing (α : Type) := Reader → Except BuildError (Option (α × Reader))

/-- What reading at one level of nesting uses. -/
structure Level where
  typeArguments : Cursor → Except BuildError (Option (List TypeName) × Cursor)
  enter : Except BuildError (Reading (List Node))

/-! ## Argument lists -/

/-- Reads one argument: elements, at least one, that become a block. -/
def readArgument (inner : Reading (List Node)) : Reading Node := fun r => do
  let start := r.cursor.offset
  let (items, r) ← inner r
  if items.isEmpty then .error (.parse start .missingArgument)
  else .ok (.block (r.mark start) items, r.made r.cursor)

/-- Reads a further argument, if a comma announces it. -/
def readNextArgument (inner : Reading (List Node)) : Probing Node := fun r =>
  if r.skipBlanks.sees ',' then (readArgument inner r.skipBlanks.next).map some else .ok none

/-- Reads the arguments up to the bracket `close`; the opening one has just been read. -/
def readArguments (level : Level) (close : Char) : Reading (List Node) := fun r => do
  let opening := r.cursor.offset - 1
  let inner ← level.enter
  let r := r.skipBlanks
  if r.sees close then .ok ([], r.next)
  else
    let (first, r) ← readArgument inner r
    let (more, r) ← many Reader.size (readNextArgument inner) r
    let r := r.skipBlanks
    if r.sees close then .ok (first :: more, r.next)
    else .error (.parse opening (.unclosedArguments close))

/-! ## Routes -/

/-- Reads an indexer, if there is one. -/
def readIndexer (level : Level) : Probing (Segment Node) := fun r =>
  if r.sees '[' then do
    let opening := r.cursor.offset
    let (args, r) ← readArguments level ']' r.next
    if args.isEmpty then .error (.parse opening .emptyIndexer)
    else .ok (some (.indexer (r.mark opening) args, r.made r.cursor))
  else .ok none

/-- Reads a name with its type arguments and its arguments. -/
def readNamed (level : Level) : Reading (Segment Node) := fun r => do
  let start := r.cursor.offset
  let (run, cursor) := r.cursor.span isNameChar
  let name := String.ofList run
  let (generics, cursor) ← level.typeArguments cursor
  let generics := generics.getD []
  let r : Reader := { r with cursor }
  if r.sees '(' then
    let (args, r) ← readArguments level ')' r.next
    .ok (.method (r.mark start) name generics args, r.made r.cursor)
  else .ok (.member (r.mark start) name generics, r.made r.cursor)

/-- Reads a name and the indexers right after it. -/
def readSegments (level : Level) : Reading (List (Segment Node)) := fun r => do
  let (named, r) ← readNamed level r
  let (indexers, r) ← many Reader.size (readIndexer level) r
  .ok (named :: indexers, r)

/-- Reads further segments, if a dot and a name announce them. -/
def readNextSegments (level : Level) : Probing (List (Segment Node)) := fun r =>
  if r.cursor.seesDotName then (readSegments level r.next).map some else .ok none

/-- Reads a dotted chain. -/
def readRoute (level : Level) : Reading Node := fun r => do
  let start := r.cursor.offset
  let (first, r) ← readSegments level r
  let (more, r) ← many Reader.size (readNextSegments level) r
  .ok (.route (r.mark start) .scope (first ++ more.flatten), r.made r.cursor)

/-! ## Elements -/

/-- Whether a character ends a list of elements. -/
def endsElements (c : Char) : Bool := c = ')' || c = ']' || c = '\x7d' || c = ','

/-- Reads elements between parentheses; the reader is on the opening one. -/
def readParentheses (level : Level) : Reading Node := fun r => do
  let start := r.cursor.offset
  let inner ← level.enter
  let (items, r) ← inner r.next
  let r := r.skipBlanks
  if !r.sees ')' then .error (.parse start .unclosedParenthesis)
  else if items.isEmpty then .error (.parse start .emptyParentheses)
  else .ok (.block (r.mark start) items, r.made r.next.cursor)

/-- The node of a token. -/
def Lexeme.node (mark : Mark) : Lexeme → Node
  | .constant value => .constant mark value
  | .unresolved raw => .unresolved mark raw

/-- Reads the element that starts with the character `c`. -/
def readElementAt (level : Level) (c : Char) : Reading Node := fun r =>
  let mark := r.mark r.cursor.offset
  if c = '(' then readParentheses level r
  else if c = '"' then
    match readString r.cursor with
    | .error e => .error e
    | .ok (value, after) => .ok (.constant mark value, r.made after)
  else if c.isDigit || c = '.' then
    let (lexeme, after) := readNumber r.cursor
    match lexeme with
    | .error trap => .error (.trapped trap)
    | .ok lexeme => .ok (lexeme.node mark, r.made after)
  else if isNameStart c then readRoute level r
  else
    match Operator.ofChar? c with
    | some op => .ok (.operator mark op, r.made r.cursor.next)
    | none =>
      let (raw, after) := readStray r.cursor
      .ok (.unresolved mark raw, r.made after)

/-- Reads the next element, if there is one before the list ends. -/
def readElement (level : Level) : Probing Node := fun r =>
  let r := r.skipBlanks
  match r.cursor.peek? with
  | none => .ok none
  | some c => if endsElements c then .ok none else (readElementAt level c r).map some

/-- Reads elements until the list ends, with `room` levels of nesting left of `limit`. -/
def readElements (limit : Nat) : (room : Nat) → Reading (List Node)
  | 0 =>
    let level : Level := ⟨typeArguments? limit 0, .error (.limitExceeded .nestingDepth limit)⟩
    many Reader.size (readElement level)
  | room + 1 =>
    let level : Level := ⟨typeArguments? limit (room + 1), .ok (readElements limit room)⟩
    many Reader.size (readElement level)

/-- Reads a whole text as one block; nesting is bounded by `limit`. The number of nodes comes with
the block. -/
def Node.ofSource (limit : Nat) (source : String) : Except BuildError (Node × Nat) := do
  let (items, r) ← readElements limit limit ⟨.start source, 0⟩
  let r := r.skipBlanks
  match r.cursor.peek? with
  | some c => .error (.parse r.cursor.offset (.unexpected c))
  | none =>
    if items.isEmpty then .error (.parse 0 .emptyExpression)
    else .ok (.block (r.mark 0) items, r.nodes + 1)

end Formula
