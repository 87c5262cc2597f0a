import Formula.Error
import Formula.Source.Cursor

/-!
# Type arguments

Lists such as `<int, Demo.Pair<A, B>>` after a name. Whether a `<` opens such a list shows only when
it has been read to its end, so a list is tried and given up without a trace if it is not one.

Each list is one level of nesting. The number of levels left is what the reader recurses on.
-/

namespace Formula

/-- Why a list of type arguments is not read. -/
inductive ListFault where
  | malformed
  | tooDeep
deriving Repr, DecidableEq

/-- Reads another piece of a dotted name. -/
def dotName {ε : Type} (c : Cursor) : Except ε (Option (String × Cursor)) :=
  .ok (if c.seesDotName then c.next.name? else none)

/-- Reads a type name; `list` reads the arguments, if a bracket announces them. -/
def readTypeName (list : Cursor → Except ListFault (List TypeName × Cursor)) (c : Cursor) :
    Except ListFault (TypeName × Cursor) :=
  match c.name? with
  | none => .error .malformed
  | some (first, c) => do
    let (more, c) ← many (·.rest.length) dotName c
    let (args, c) ← if c.sees '<' then list c else .ok ([], c)
    match TypeName.ofPath? (first :: more) args with
    | some t => .ok (t, c)
    | none => .error .malformed

/-- Reads a list of type arguments that may hold `room - 1` levels of further lists; the cursor is
on the opening bracket. -/
def readTypeList : (room : Nat) → Cursor → Except ListFault (List TypeName × Cursor)
  | 0, _ => .error .tooDeep
  | room + 1, c => do
    let entry (c : Cursor) : Except ListFault (TypeName × Cursor) :=
      readTypeName (readTypeList room) c.skipBlanks
    let another (c : Cursor) : Except ListFault (Option (TypeName × Cursor)) :=
      if c.skipBlanks.sees ',' then (entry c.skipBlanks.next).map some else .ok none
    let (first, c) ← entry c.next
    let (more, c) ← many (·.rest.length) another c
    if c.skipBlanks.sees '>' then .ok (first :: more, c.skipBlanks.next) else .error .malformed

/-- Reads type arguments if there are any. Without an opening bracket, and when what follows is no
such list, nothing is read. `limit` is the bound on nesting that `room` is left of. -/
def typeArguments? (limit room : Nat) (c : Cursor) :
    Except BuildError (Option (List TypeName) × Cursor) :=
  if c.sees '<' then
    match readTypeList room c with
    | .ok (args, after) => .ok (some args, after)
    | .error .malformed => .ok (none, c)
    | .error .tooDeep => .error (.limitExceeded .nestingDepth limit)
  else .ok (none, c)

end Formula
