import Formula.Proofs.TypeBrackets

/-!
# Reading with a count of levels

Readers recurse on the levels of nesting that are left, so a level ends where its reader returns.
Here a state counts the levels instead, and readers are written once more as steps of it: a bracket
enters a level, which can exceed the bound, and leaves it, which is a fault if none was entered. A
list of type arguments that is given up has entered levels and moved the cursor on, so the cursor is
put back.

Both ways of reading have the same outcome, and a run that returns is in the level it began in:
`typeArguments_eq` for type arguments, `mirrors` for all readers of a level.
-/

namespace Formula

/-! ## The state -/

/-- A reader, and the number of levels it is in. -/
structure Descent where
  reader : Reader
  depth : Nat
deriving DecidableEq

namespace Descent

/-- Why reading stops: a fault of the text, or a level that is left and was not entered. Where no
further call is left to make, reading is stuck. -/
inductive Fault where
  | build (e : BuildError)
  | underflow
  | stuck

/-- The number of characters left. -/
def size (d : Descent) : Nat := d.reader.size

/-- Whether the next character is `x`. -/
def sees (d : Descent) (x : Char) : Bool := d.reader.sees x

/-- The byte offset of the next character. -/
def offset (d : Descent) : Nat := d.reader.cursor.offset

/-- The state with another reader. -/
def withReader (d : Descent) (reader : Reader) : Descent := { d with reader }

/-- The state with the cursor elsewhere. -/
def moved (d : Descent) (cursor : Cursor) : Descent := d.withReader { d.reader with cursor }

/-- The state after the next character. -/
def next (d : Descent) : Descent := d.withReader d.reader.next

/-- The state after all blanks. -/
def skipBlanks (d : Descent) : Descent := d.withReader d.reader.skipBlanks

/-- The state after a node is made that ends at the cursor. -/
def made (d : Descent) (cursor : Cursor) : Descent := d.withReader (d.reader.made cursor)

/-- The state one level further in. -/
def deeper (d : Descent) : Descent := { d with depth := d.depth + 1 }

/-- Enters a level, if the bound allows it. -/
def enter (limit : Nat) (d : Descent) : Except Fault Descent :=
  if limit < d.depth + 1 then .error (.build (.limitExceeded .nestingDepth limit)) else .ok d.deeper

/-- Leaves a level. -/
def leave (d : Descent) : Except Fault Descent :=
  if d.depth = 0 then .error .underflow else .ok { d with depth := d.depth - 1 }

end Descent

/-- Reads something in a state that counts levels. -/
abbrev Descending (α : Type) := Descent → Except Descent.Fault (α × Descent)

/-- Reads something that may not be there, in a state that counts levels. -/
abbrev Finding (α : Type) := Descent → Except Descent.Fault (Option (α × Descent))

namespace Descent

/-! ## Type arguments -/

/-- Reads a type name, if there is one; `list` reads its arguments. -/
def typeName (list : Descending (Option (List TypeName))) : Descending (Option TypeName) := fun d =>
  match d.reader.cursor.name? with
  | none => .ok (none, d)
  | some (first, c) => do
    let (more, c) ← many (·.rest.length) dotName c
    let d := d.moved c
    if d.sees '<' then
      let (args, d) ← list d
      .ok (args.bind (TypeName.ofPath? (first :: more)), d)
    else .ok (TypeName.ofPath? (first :: more) [], d)

/-- Reads type names with commas between them, up to the closing bracket. Where no name, comma or
bracket stands, the list is given up there. -/
def typeNames (name : Descending (Option TypeName)) (d : Descent) :
    Except Fault (Option (List TypeName) × Descent) :=
  match name d.skipBlanks with
  | .error e => .error e
  | .ok (none, e) => .ok (none, e)
  | .ok (some t, e) =>
    if e.skipBlanks.sees ',' then
      if e.skipBlanks.next.size < d.size then
        match typeNames name e.skipBlanks.next with
        | .error e => .error e
        | .ok (ts, e) => .ok (ts.map (t :: ·), e)
      else .ok (none, e)
    else if e.skipBlanks.sees '>' then .ok (some [t], e.skipBlanks.next)
    else .ok (none, e.skipBlanks)
termination_by d.size

/-- Reads a list of type arguments, if there is one. If it is given up, the cursor goes back to its
start. -/
def typeList (limit : Nat) (inner : Descending (Option (List TypeName))) :
    Descending (Option (List TypeName)) := fun d =>
  if d.sees '<' then do
    let saved := d.reader.cursor
    let d ← d.enter limit
    let (args, d) ← typeNames (typeName inner) d.next
    let d ← d.leave
    .ok (args, if args.isNone then d.moved saved else d)
  else .ok (none, d)

/-- Reads a list of type arguments, if there is one, with no more than `calls` calls inside each
other. -/
def typeArguments (limit : Nat) : (calls : Nat) → Descending (Option (List TypeName))
  | 0 => typeList limit fun _ => .error .stuck
  | calls + 1 => typeList limit (typeArguments limit calls)

/-! ## Elements -/

/-- What reading an element calls: readers of type arguments and of the elements one level further
in. -/
structure Calls where
  typeArguments : Descending (Option (List TypeName))
  elements : Descending (List Node)

def argument (calls : Calls) : Descending Node := fun d => do
  let start := d.offset
  let (items, d) ← calls.elements d
  if items.isEmpty then .error (.build (.parse start .missingArgument))
  else .ok (.block (d.reader.mark start) items, d.made d.reader.cursor)

def nextArgument (calls : Calls) : Finding Node := fun d =>
  if d.skipBlanks.sees ',' then (argument calls d.skipBlanks.next).map some else .ok none

def arguments (limit : Nat) (calls : Calls) (close : Char) : Descending (List Node) := fun d => do
  let opening := d.offset - 1
  let d ← d.enter limit
  let d := d.skipBlanks
  if d.sees close then
    let d ← d.next.leave
    .ok ([], d)
  else
    let (first, d) ← argument calls d
    let (more, d) ← many size (nextArgument calls) d
    let d := d.skipBlanks
    if d.sees close then
      let d ← d.next.leave
      .ok (first :: more, d)
    else .error (.build (.parse opening (.unclosedArguments close)))

def indexer (limit : Nat) (calls : Calls) : Finding (Segment Node) := fun d =>
  if d.sees '[' then do
    let opening := d.offset
    let (args, d) ← arguments limit calls ']' d.next
    if args.isEmpty then .error (.build (.parse opening .emptyIndexer))
    else .ok (some (.indexer (d.reader.mark opening) args, d.made d.reader.cursor))
  else .ok none

def named (limit : Nat) (calls : Calls) : Descending (Segment Node) := fun d => do
  let start := d.offset
  let (run, cursor) := d.reader.cursor.span isNameChar
  let name := String.ofList run
  let (generics, d) ← calls.typeArguments (d.moved cursor)
  let generics := generics.getD []
  if d.sees '(' then
    let (args, d) ← arguments limit calls ')' d.next
    .ok (.method (d.reader.mark start) name generics args, d.made d.reader.cursor)
  else .ok (.member (d.reader.mark start) name generics, d.made d.reader.cursor)

def segments (limit : Nat) (calls : Calls) : Descending (List (Segment Node)) := fun d => do
  let (first, d) ← named limit calls d
  let (indexers, d) ← many size (indexer limit calls) d
  .ok (first :: indexers, d)

def nextSegments (limit : Nat) (calls : Calls) : Finding (List (Segment Node)) := fun d =>
  if d.reader.cursor.seesDotName then (segments limit calls d.next).map some else .ok none

def route (limit : Nat) (calls : Calls) : Descending Node := fun d => do
  let start := d.offset
  let (first, d) ← segments limit calls d
  let (more, d) ← many size (nextSegments limit calls) d
  .ok (.route (d.reader.mark start) .scope (first ++ more.flatten), d.made d.reader.cursor)

def parentheses (limit : Nat) (calls : Calls) : Descending Node := fun d => do
  let start := d.offset
  let d ← d.next.enter limit
  let (items, d) ← calls.elements d
  let d := d.skipBlanks
  if !d.sees ')' then .error (.build (.parse start .unclosedParenthesis))
  else
    let d ← d.leave
    if items.isEmpty then .error (.build (.parse start .emptyParentheses))
    else .ok (.block (d.reader.mark start) items, d.made d.next.reader.cursor)

/-- Reads the element that starts with the character `c`. A literal, an operator and a stray are in
no level of their own. -/
def elementAt (limit : Nat) (calls : Calls) (c : Char) : Descending Node := fun d =>
  let mark := d.reader.mark d.offset
  if c = '(' then parentheses limit calls d
  else if c = '"' then
    match readString d.reader.cursor with
    | .error e => .error (.build e)
    | .ok (value, after) => .ok (.constant mark value, d.made after)
  else if c.isDigit || c = '.' then
    let (lexeme, after) := readNumber d.reader.cursor
    match lexeme with
    | .error trap => .error (.build (.trapped trap))
    | .ok lexeme => .ok (lexeme.node mark, d.made after)
  else if isNameStart c then route limit calls d
  else
    match Operator.ofChar? c with
    | some op => .ok (.operator mark op, d.made d.reader.cursor.next)
    | none =>
      let (raw, after) := readStray d.reader.cursor
      .ok (.unresolved mark raw, d.made after)

def element (limit : Nat) (calls : Calls) : Finding Node := fun d =>
  let d := d.skipBlanks
  match d.reader.cursor.peek? with
  | none => .ok none
  | some c => if endsElements c then .ok none else (elementAt limit calls c d).map some

/-- Reads elements until the list ends, with no more than `calls` calls inside each other. -/
def elements (limit : Nat) : (calls : Nat) → Descending (List Node)
  | 0 => many size (element limit ⟨typeArguments limit 0, fun _ => .error .stuck⟩)
  | calls + 1 => many size (element limit ⟨typeArguments limit (calls + 1), elements limit calls⟩)

/-- What reading elements calls. -/
def callsAt (limit : Nat) : (calls : Nat) → Calls
  | 0 => ⟨typeArguments limit 0, fun _ => .error .stuck⟩
  | calls + 1 => ⟨typeArguments limit (calls + 1), elements limit calls⟩

theorem elements_eq (limit calls : Nat) :
    elements limit calls = many size (element limit (callsAt limit calls)) := by
  cases calls <;> rfl

theorem callsAt_typeArguments (limit calls : Nat) :
    (callsAt limit calls).typeArguments = typeArguments limit calls := by
  cases calls <;> rfl

/-! ## Type arguments are read alike -/

/-- An outcome of reading, with another result in place of its result. -/
def lift {α β : Type} (f : α → β) (x : Except BuildError α) : Except Fault β :=
  (x.map f).mapError .build

section

variable {limit : Nat} {d : Descent} {α : Type}

/-- What is read of a list of type arguments, and what is read with a count: the same and up to the
same place, or the list is given up somewhere, or it is too deep. The count is what it was. -/
inductive Probed (limit : Nat) (d : Descent) {α : Type} :
    Except ListFault (α × Cursor) → Except Fault (Option α × Descent) → Prop
  | found (a : α) (c : Cursor) : Probed limit d (.ok (a, c)) (.ok (some a, d.moved c))
  | givenUp (c : Cursor) : Probed limit d (.error .malformed) (.ok (none, d.moved c))
  | tooDeep :
    Probed limit d (.error .tooDeep) (.error (.build (.limitExceeded .nestingDepth limit)))

/-- Where the cursor was does not matter. -/
theorem Probed.moved {x : Except ListFault (α × Cursor)} {y : Except Fault (Option α × Descent)}
    (h : Probed limit d x y) (c : Cursor) : Probed limit (d.moved c) x y := by
  cases h with
  | found a c' => exact .found a c'
  | givenUp c' => exact .givenUp c'
  | tooDeep => exact .tooDeep

theorem typeName_probed {list : Cursor → Except ListFault (List TypeName × Cursor)}
    {list' : Descending (Option (List TypeName))}
    (hlist : ∀ c : Cursor, c.sees '<' = true → Probed limit d (list c) (list' (d.moved c))) :
    Probed limit d (readTypeName list d.reader.cursor) (typeName list' d) := by
  unfold readTypeName typeName
  cases d.reader.cursor.name? with
  | none => exact .givenUp d.reader.cursor
  | some name =>
    obtain ⟨first, c⟩ := name
    obtain ⟨more, c', hmore, -⟩ := many_dotName c
    simp only [hmore, bind, Except.bind]
    cases hsees : c'.sees '<' with
    | false =>
      have hmoved : ¬ (d.moved c').sees '<' = true :=
        fun h => Bool.false_ne_true (hsees.symm.trans h)
      rw [if_neg Bool.false_ne_true, if_neg hmoved]
      cases ht : TypeName.ofPath? (first :: more) [] with
      | none => exact .givenUp c'
      | some t => exact .found t c'
    | true =>
      rw [if_pos rfl, if_pos (show (d.moved c').sees '<' = true from hsees)]
      have hargs := hlist c' hsees
      generalize list c' = x, list' (d.moved c') = y at hargs
      cases hargs with
      | tooDeep => exact .tooDeep
      | givenUp c'' => exact .givenUp c''
      | found args c'' =>
        cases ht : TypeName.ofPath? (first :: more) args with
        | none =>
          simp only [Option.bind_some, ht]
          exact .givenUp c''
        | some t =>
          simp only [Option.bind_some, ht]
          exact .found t c''

theorem typeNames_probed {room : Nat} {list : Descending (Option (List TypeName))}
    (hlist : ∀ c : Cursor, c.sees '<' = true →
      Probed limit d (readTypeList room c) (list (d.moved c))) (c : Cursor) :
    Probed limit d (TypeName.readEntries room c) (typeNames (typeName list) (d.moved c)) := by
  induction hn : c.rest.length using Nat.strongRecOn generalizing c with
  | ind n ih =>
    have hname :
        Probed limit d (TypeName.readEntry room c) (typeName list (d.moved c).skipBlanks) :=
      (typeName_probed (d := d.moved c.skipBlanks) fun c hc => (hlist c hc).moved _).moved
        d.reader.cursor
    rw [TypeName.readEntries_eq, typeNames]
    cases hread : TypeName.readEntry room c with
    | error fault =>
      rw [hread] at hname
      generalize typeName list (d.moved c).skipBlanks = y at hname
      cases hname with
      | givenUp c' => exact .givenUp c'
      | tooDeep => exact .tooDeep
    | ok first =>
      rw [hread] at hname
      generalize typeName list (d.moved c).skipBlanks = y at hname
      cases hname with
      | found t e =>
        show Probed limit d (if e.skipBlanks.sees ',' then _ else _)
          (if e.skipBlanks.sees ',' then _ else _)
        cases hcomma : e.skipBlanks.sees ',' with
        | true =>
          have hlt : e.skipBlanks.next.rest.length < c.rest.length :=
            TypeName.readEntry_next_lt hread hcomma
          have hmore : Probed limit d (TypeName.readEntries room e.skipBlanks.next)
              (typeNames (typeName list) (d.moved e).skipBlanks.next) := ih _ (hn ▸ hlt) _ rfl
          rw [if_pos rfl, if_pos rfl]
          -- an entry has been read, so the guard on progress is met
          show Probed limit d _ (if e.skipBlanks.next.rest.length < c.rest.length then _ else _)
          rw [if_pos hlt]
          show Probed limit d (TypeName.readEntries room e.skipBlanks.next >>= _) _
          generalize TypeName.readEntries room e.skipBlanks.next = x,
            typeNames (typeName list) (d.moved e).skipBlanks.next = y at hmore
          cases hmore with
          | found ts c' => exact .found _ _
          | givenUp c' => exact .givenUp _
          | tooDeep => exact .tooDeep
        | false =>
          rw [if_neg Bool.false_ne_true, if_neg Bool.false_ne_true]
          show Probed limit d (if e.skipBlanks.sees '>' then _ else _)
            (if e.skipBlanks.sees '>' then _ else _)
          split
          · exact .found _ _
          · exact .givenUp _

theorem enter_of_lt (h : d.depth < limit) : d.enter limit = .ok d.deeper := if_neg (by omega)

theorem enter_of_le (h : limit ≤ d.depth) :
    d.enter limit = .error (.build (.limitExceeded .nestingDepth limit)) :=
  if_pos (by omega)

/-- A list of type arguments is read with a count as without. -/
theorem typeList_eq {inner : Descending (Option (List TypeName))}
    (hinner : d.depth < limit → ∀ c : Cursor, c.sees '<' = true →
      Probed limit d.deeper (readTypeList (limit - d.deeper.depth) c) (inner (d.deeper.moved c))) :
    typeList limit inner d =
      lift (fun x => (x.1, d.moved x.2))
        (typeArguments? limit (limit - d.depth) d.reader.cursor) := by
  unfold typeList typeArguments?
  show (if d.reader.cursor.sees '<' then _ else _) = _
  cases hsees : d.reader.cursor.sees '<' with
  | false =>
    rw [if_neg Bool.false_ne_true, if_neg Bool.false_ne_true]
    rfl
  | true =>
    rw [if_pos rfl, if_pos rfl]
    by_cases hdepth : d.depth < limit
    · have hroom : limit - d.depth = limit - d.deeper.depth + 1 := by
        show limit - d.depth = limit - (d.depth + 1) + 1
        omega
      have hlist :
          Probed limit d.deeper (TypeName.readEntries (limit - d.deeper.depth) d.reader.cursor.next)
          (typeNames (typeName inner) d.deeper.next) :=
            typeNames_probed (hinner hdepth) d.reader.cursor.next
      rw [enter_of_lt hdepth, hroom, readTypeList_eq]
      show typeNames (typeName inner) d.deeper.next >>= _ = _
      generalize TypeName.readEntries (limit - d.deeper.depth) d.reader.cursor.next = x,
        typeNames (typeName inner) d.deeper.next = y at hlist
      cases hlist with
      | found args c => rfl
      | givenUp c => rfl
      | tooDeep => rfl
    · have hroom : limit - d.depth = 0 := by omega
      rw [enter_of_le (Nat.le_of_not_lt hdepth), hroom]
      rfl

/-- The arguments of a type name are read so in particular. -/
theorem Probed.of_eq {room : Nat} {x : Except Fault (Option (List TypeName) × Descent)}
    (hsees : d.reader.cursor.sees '<' = true)
    (h : x = lift (fun x => (x.1, d.moved x.2)) (typeArguments? limit room d.reader.cursor)) :
    Probed limit d (readTypeList room d.reader.cursor) x := by
  subst h
  rw [typeArguments?, if_pos hsees]
  cases readTypeList room d.reader.cursor with
  | ok found => exact .found found.1 found.2
  | error fault =>
    cases fault with
    | malformed => exact .givenUp d.reader.cursor
    | tooDeep => exact .tooDeep

/-- **Type arguments are read with a count as without.** -/
theorem typeArguments_eq {calls : Nat} (hcalls : limit - d.depth ≤ calls) :
    typeArguments limit calls d =
      lift (fun x => (x.1, d.moved x.2))
        (typeArguments? limit (limit - d.depth) d.reader.cursor) := by
  induction calls generalizing d with
  | zero => exact typeList_eq fun hlt => absurd hlt (by omega)
  | succ calls ih =>
    refine typeList_eq fun hlt c hc => ?_
    have hdeeper : limit - d.deeper.depth ≤ calls := by
      show limit - (d.depth + 1) ≤ calls
      omega
    exact (Probed.of_eq (d := d.deeper.moved c) hc (ih (d := d.deeper.moved c) hdeeper)).moved
      d.reader.cursor

end

/-! ## Elements are read alike -/

section

variable {α β α' β' : Type}

theorem bind_lift {f : α → α'} {g : β → β'} {x : Except BuildError α} {y : Except Fault α'}
    {F : α' → Except Fault β'} {G : α → Except BuildError β} (hy : y = lift f x)
    (h : ∀ a, F (f a) = lift g (G a)) : y >>= F = lift g (x >>= G) := by
  subst hy
  cases x with
  | error e => rfl
  | ok a => exact h a

theorem map_lift {f : α → α'} {g : β → β'} {x : Except BuildError α} {y : Except Fault α'}
    {F : α' → β'} {G : α → β} (hy : y = lift f x) (h : ∀ a, F (f a) = g (G a)) :
    y.map F = lift g (x.map G) := by
  subst hy
  cases x with
  | error e => rfl
  | ok a => exact congrArg Except.ok (h a)

/-- A result of reading, at a level. -/
def atLevel (depth : Nat) (x : α × Reader) : α × Descent := (x.1, ⟨x.2, depth⟩)

variable {limit depth : Nat}

/-- A step that is the same with a count and without is so if it is repeated. -/
theorem many_lift {step : Probing α} {step' : Finding α}
    (h : ∀ r, step' ⟨r, depth⟩ = lift (Option.map (atLevel depth)) (step r)) (r : Reader) :
    many size step' ⟨r, depth⟩ = lift (atLevel depth) (many Reader.size step r) := by
  induction hn : r.size using Nat.strongRecOn generalizing r with
  | ind n ih =>
    rw [many_eq, many_eq]
    refine bind_lift (h r) fun found => ?_
    cases found with
    | none => rfl
    | some x =>
      obtain ⟨a, s⟩ := x
      show (if s.size < r.size then _ else _) = lift _ (if s.size < r.size then _ else _)
      split
      · rename_i hlt
        exact bind_lift (ih _ (hn ▸ hlt) s rfl) fun _ => rfl
      · rfl

/-- The readers that are called at a level read as those without a count do. -/
structure Mirrors (limit depth : Nat) (calls : Calls) (level : Level) : Prop where
  typeArguments (r : Reader) : calls.typeArguments ⟨r, depth⟩ =
    lift (fun x => (x.1, ⟨{ r with cursor := x.2 }, depth⟩)) (level.typeArguments r.cursor)
  enter : limit ≤ depth ∧ level.enter = .error (.limitExceeded .nestingDepth limit) ∨
    depth < limit ∧ ∃ inner, level.enter = .ok inner ∧
      ∀ r, calls.elements ⟨r, depth + 1⟩ = lift (atLevel (depth + 1)) (inner r)

variable {calls : Calls} {level : Level}

theorem argument_eq {inner : Reading (List Node)}
    (h : ∀ r, calls.elements ⟨r, depth⟩ = lift (atLevel depth) (inner r)) (r : Reader) :
    argument calls ⟨r, depth⟩ = lift (atLevel depth) (readArgument inner r) := by
  unfold argument readArgument
  refine bind_lift (h r) fun (items, s) => ?_
  show ite _ _ _ = lift _ (ite _ _ _)
  split <;> rfl

theorem nextArgument_eq {inner : Reading (List Node)}
    (h : ∀ r, calls.elements ⟨r, depth⟩ = lift (atLevel depth) (inner r)) (r : Reader) :
    nextArgument calls ⟨r, depth⟩ =
      lift (Option.map (atLevel depth)) (readNextArgument inner r) := by
  unfold nextArgument readNextArgument
  show (if r.skipBlanks.sees ',' then _ else _) = lift _ (if r.skipBlanks.sees ',' then _ else _)
  split
  · exact map_lift (argument_eq h r.skipBlanks.next) fun _ => rfl
  · rfl

variable (h : Mirrors limit depth calls level) (r : Reader)

include h

theorem Mirrors.arguments (close : Char) :
    arguments limit calls close ⟨r, depth⟩ =
      lift (atLevel depth) (readArguments level close r) := by
  unfold Descent.arguments readArguments
  rcases h.enter with ⟨hle, henter⟩ | ⟨hlt, inner, henter, hinner⟩
  · rw [enter_of_le hle, henter]
    rfl
  · rw [enter_of_lt hlt, henter]
    show (if r.skipBlanks.sees close then _ else _) =
      lift _ (if r.skipBlanks.sees close then _ else _)
    split
    · rfl
    · refine bind_lift (argument_eq hinner r.skipBlanks) fun (first, s) => ?_
      refine bind_lift (many_lift (nextArgument_eq hinner) s) fun (more, t) => ?_
      show (if t.skipBlanks.sees close then _ else _) =
        lift _ (if t.skipBlanks.sees close then _ else _)
      split <;> rfl

theorem Mirrors.indexer :
    indexer limit calls ⟨r, depth⟩ = lift (Option.map (atLevel depth)) (readIndexer level r) := by
  unfold Descent.indexer readIndexer
  show (if r.sees '[' then _ else _) = lift _ (if r.sees '[' then _ else _)
  split
  · refine bind_lift (h.arguments r.next ']') fun (args, s) => ?_
    show ite _ _ _ = lift _ (ite _ _ _)
    split <;> rfl
  · rfl

theorem Mirrors.named :
    named limit calls ⟨r, depth⟩ = lift (atLevel depth) (readNamed level r) := by
  unfold Descent.named readNamed
  refine bind_lift (h.typeArguments { r with cursor := (r.cursor.span isNameChar).2 })
    fun (generics, cursor) => ?_
  show (if cursor.sees '(' then _ else _) = lift _ (if cursor.sees '(' then _ else _)
  split
  · exact bind_lift (h.arguments (Reader.next { r with cursor }) ')') fun _ => rfl
  · rfl

theorem Mirrors.segments :
    segments limit calls ⟨r, depth⟩ = lift (atLevel depth) (readSegments level r) := by
  unfold Descent.segments readSegments
  refine bind_lift (h.named r) fun (first, s) => ?_
  exact bind_lift (many_lift h.indexer s) fun _ => rfl

theorem Mirrors.nextSegments :
    nextSegments limit calls ⟨r, depth⟩ =
      lift (Option.map (atLevel depth)) (readNextSegments level r) := by
  unfold Descent.nextSegments readNextSegments
  show (if r.cursor.seesDotName then _ else _) = lift _ (if r.cursor.seesDotName then _ else _)
  split
  · exact map_lift (h.segments r.next) fun _ => rfl
  · rfl

theorem Mirrors.route :
    route limit calls ⟨r, depth⟩ = lift (atLevel depth) (readRoute level r) := by
  unfold Descent.route readRoute
  refine bind_lift (h.segments r) fun (first, s) => ?_
  exact bind_lift (many_lift h.nextSegments s) fun _ => rfl

theorem Mirrors.parentheses :
    parentheses limit calls ⟨r, depth⟩ = lift (atLevel depth) (readParentheses level r) := by
  unfold Descent.parentheses readParentheses
  rcases h.enter with ⟨hle, henter⟩ | ⟨hlt, inner, henter, hinner⟩
  · rw [show (Descent.next ⟨r, depth⟩).enter limit = _ from enter_of_le hle, henter]
    rfl
  · rw [show (Descent.next ⟨r, depth⟩).enter limit = _ from enter_of_lt hlt, henter]
    show calls.elements ⟨r.next, depth + 1⟩ >>= _ = lift _ (inner r.next >>= _)
    refine bind_lift (hinner r.next) fun (items, s) => ?_
    show (if !s.skipBlanks.sees ')' then _ else _) =
      lift _ (if !s.skipBlanks.sees ')' then _ else _)
    split
    · rfl
    · show (if items.isEmpty then _ else _) = lift _ (if items.isEmpty then _ else _)
      split <;> rfl

theorem Mirrors.elementAt (c : Char) :
    elementAt limit calls c ⟨r, depth⟩ = lift (atLevel depth) (readElementAt level c r) := by
  unfold Descent.elementAt readElementAt
  simp only
  split
  · exact h.parentheses r
  split
  · cases readString r.cursor <;> rfl
  split
  · cases (readNumber r.cursor).1 <;> rfl
  split
  · exact h.route r
  · cases Operator.ofChar? c <;> rfl

theorem Mirrors.element :
    element limit calls ⟨r, depth⟩ = lift (Option.map (atLevel depth)) (readElement level r) := by
  unfold Descent.element readElement
  simp only
  rw [show (Descent.skipBlanks ⟨r, depth⟩).reader = r.skipBlanks from rfl]
  cases r.skipBlanks.cursor.peek? with
  | none => rfl
  | some c =>
    show (if endsElements c then _ else _) = lift _ (if endsElements c then _ else _)
    split
    · rfl
    · exact map_lift (h.elementAt r.skipBlanks c) fun _ => rfl

end

variable {limit depth calls : Nat}

theorem callsAt_typeArguments_eq (hcalls : limit - depth ≤ calls) (r : Reader) :
    (callsAt limit calls).typeArguments ⟨r, depth⟩ =
      lift (fun x => (x.1, ⟨{ r with cursor := x.2 }, depth⟩))
        ((levelAt limit (limit - depth)).typeArguments r.cursor) := by
  rw [callsAt_typeArguments, levelAt_typeArguments]
  exact typeArguments_eq (d := ⟨r, depth⟩) hcalls

theorem Mirrors.elements
    (h : Mirrors limit depth (callsAt limit calls) (levelAt limit (limit - depth))) (r : Reader) :
    Descent.elements limit calls ⟨r, depth⟩ =
      lift (atLevel depth) (readElements limit (limit - depth) r) := by
  rw [elements_eq, readElements_eq]
  exact many_lift h.element r

/-- With as many calls as there are levels left, a text is read with a count as without. -/
theorem mirrors (hcalls : limit - depth ≤ calls) :
    Mirrors limit depth (callsAt limit calls) (levelAt limit (limit - depth)) := by
  -- each level that is left takes one call; without any left, both readers refuse to enter
  induction calls generalizing depth with
  | zero =>
    refine ⟨callsAt_typeArguments_eq hcalls, .inl ⟨by omega, ?_⟩⟩
    rw [Nat.le_zero.mp hcalls]
    rfl
  | succ calls ih =>
    refine ⟨callsAt_typeArguments_eq hcalls, ?_⟩
    cases hroom : limit - depth with
    | zero => exact .inl ⟨by omega, rfl⟩
    | succ room =>
      have hdeeper : limit - (depth + 1) = room := by omega
      refine .inr ⟨by omega, readElements limit room, rfl, fun r => ?_⟩
      rw [← hdeeper]
      exact (ih (by omega)).elements r

/-! ## Levels are restored -/

section

variable {α σ : Type}

/-- A run with a count has the outcome `y` of reading without one. If it returns, it is in the level
it began in, and otherwise the text is at fault. -/
structure Settles (depth : Nat) (x : Except Fault (α × Descent))
    (y : Except BuildError (α × Reader)) : Prop where
  same : x = lift (atLevel depth) y
  restores : ∀ a e, x = .ok (a, e) → e.depth = depth
  clean : ∀ fault, x = .error fault → ∃ e, fault = .build e

theorem settles {depth : Nat} {x : Except Fault (α × Descent)} {y : Except BuildError (α × Reader)}
    (h : x = lift (atLevel depth) y) : Settles depth x y := by
  refine ⟨h, ?_, ?_⟩
  · rintro a e rfl
    cases y with
    | error e => cases h
    | ok b =>
      cases h
      rfl
  · rintro fault rfl
    cases y with
    | ok b => cases h
    | error e =>
      cases h
      exact ⟨e, rfl⟩

/-- What is found, with the state after it; the state `s` it was looked for in, if nothing is
found. -/
def orElse (s : σ) : Option (α × σ) → Option α × σ
  | none => (none, s)
  | some (a, t) => (some a, t)

end

/-- A list of type arguments that is given up leaves no trace. One that is read is read to its
closing bracket. -/
theorem typeArguments_ok {limit calls : Nat} {d e : Descent} {args : Option (List TypeName)}
    (hcalls : limit - d.depth ≤ calls) (h : typeArguments limit calls d = .ok (args, e)) :
    (args = none ∧ e = d) ∨ ∃ ts c, args = some ts ∧ e = d.moved c ∧ d.reader.cursor.Reaches c ∧
      pastClosing 0 d.reader.cursor.rest = some c.rest := by
  rw [typeArguments_eq hcalls] at h
  cases hread : typeArguments? limit (limit - d.depth) d.reader.cursor with
  | error e =>
    rw [hread] at h
    cases h
  | ok found =>
    rw [hread] at h
    cases h
    obtain ⟨hnone, hc⟩ | ⟨ts, hts, hsees, hlist⟩ := typeArguments?_ok hread
    · exact .inl ⟨hnone, congrArg d.moved hc⟩
    · obtain ⟨used, hrest, hused⟩ := readTypeList_bracketed hsees hlist
      exact .inr ⟨ts, found.2, hts, rfl, readTypeList_reaches hlist,
        hrest ▸ hused.pastClosing_bracketed found.2.rest⟩

/-- **Reading leaves the levels it enters.** From any state: type arguments that are not there leave
no trace, and those that are read leave the cursor behind the matching bracket and all else as it
was. Readers of type arguments, elements, routes and argument lists that return have restored the
level, and never leave one that was not entered. All of them read as those that count no levels. -/
theorem reading_restores_depth (limit : Nat) (d : Descent) :
    (∀ e, typeArguments limit limit d = .ok (none, e) → e = d) ∧
    (∀ args e, typeArguments limit limit d = .ok (some args, e) →
      e = d.moved e.reader.cursor ∧ d.reader.cursor.Reaches e.reader.cursor ∧
        pastClosing 0 d.reader.cursor.rest = some e.reader.cursor.rest) ∧
    Settles d.depth (typeArguments limit limit d)
      ((typeArguments? limit (limit - d.depth) d.reader.cursor).map
        fun x => (x.1, { d.reader with cursor := x.2 })) ∧
    Settles d.depth (elements limit limit d) (readElements limit (limit - d.depth) d.reader) ∧
    Settles d.depth ((element limit (callsAt limit limit) d).map (orElse d))
      ((readElement (levelAt limit (limit - d.depth)) d.reader).map (orElse d.reader)) ∧
    Settles d.depth (route limit (callsAt limit limit) d)
      (readRoute (levelAt limit (limit - d.depth)) d.reader) ∧
    ∀ close, Settles d.depth (arguments limit (callsAt limit limit) close d)
      (readArguments (levelAt limit (limit - d.depth)) close d.reader) := by
  have hcalls : limit - d.depth ≤ limit := Nat.sub_le _ _
  have hmirrors := mirrors hcalls
  refine ⟨fun e h => ?_, fun args e h => ?_, settles ?_, settles (hmirrors.elements d.reader),
    settles ?_, settles (hmirrors.route d.reader),
    fun close => settles (hmirrors.arguments d.reader close)⟩
  · obtain ⟨-, he⟩ | ⟨ts, c, hts, -⟩ := typeArguments_ok hcalls h
    · exact he
    · cases hts
  · obtain ⟨hnone, -⟩ | ⟨ts, c, -, rfl, hreaches, hpast⟩ := typeArguments_ok hcalls h
    · cases hnone
    · exact ⟨rfl, hreaches, hpast⟩
  · rw [typeArguments_eq hcalls]
    cases typeArguments? limit (limit - d.depth) d.reader.cursor <;> rfl
  · refine map_lift (hmirrors.element d.reader) fun found => ?_
    cases found <;> rfl

/-- A list with a further list in it is read from the third level, and one is given up inside of its
further list. -/
theorem reading_restores_depth_third_level :
    (∃ args, typeArguments 4 4 ⟨⟨.start "<A, B<C>> > 1", 7⟩, 2⟩ =
      .ok (some args, ⟨⟨⟨" > 1".toList, 9⟩, 7⟩, 2⟩) ∧
      args.map TypeName.text = ["A", "B<C>"] ∧
        pastClosing 0 "<A, B<C>> > 1".toList = some " > 1".toList) ∧
    ∃ e, typeArguments 4 4 ⟨⟨.start "<A, B<C + 1>>", 7⟩, 2⟩ = .ok (none, e) ∧
      e = ⟨⟨.start "<A, B<C + 1>>", 7⟩, 2⟩ := by
  obtain ⟨args, hread, hargs⟩ : ∃ args, typeArguments 4 4 ⟨⟨.start "<A, B<C>> > 1", 7⟩, 2⟩ =
      .ok (some args, ⟨⟨⟨" > 1".toList, 9⟩, 7⟩, 2⟩) ∧ args.map TypeName.text = ["A", "B<C>"] :=
    ⟨[⟨none, "A", []⟩,
      ⟨none, "B", [⟨none, "C", []⟩]⟩], by with_unfolding_all rfl, by with_unfolding_all rfl⟩
  obtain ⟨e, hgivenUp⟩ : ∃ e, typeArguments 4 4 ⟨⟨.start "<A, B<C + 1>>", 7⟩, 2⟩ = .ok (none, e) :=
    ⟨_, by with_unfolding_all rfl⟩
  have hmatch := ((reading_restores_depth 4 ⟨⟨.start "<A, B<C>> > 1", 7⟩, 2⟩).2.1 _ _ hread).2.2
  exact ⟨⟨args, hread, hargs, hmatch⟩, e, hgivenUp, (reading_restores_depth 4 _).1 e hgivenUp⟩

end Descent

end Formula
