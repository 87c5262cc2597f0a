/-!
# Written type names

A type as source text names it: an optional namespace, a name, and type arguments that are written
the same way. What a name stands for is the host's to say.
-/

namespace Formula

/-- A type name as written. -/
structure TypeName where
  space : Option String
  name : String
  args : List TypeName
deriving Repr, BEq, Inhabited

namespace TypeName

/-- The name with neither namespace nor arguments. -/
def simple (name : String) : TypeName := ⟨none, name, []⟩

/-- The name at the end of a dotted path; what comes before it is the namespace. -/
def ofPath? (path : List String) (args : List TypeName) : Option TypeName :=
  match path.getLast? with
  | none => none
  | some name =>
    let space := path.dropLast
    some ⟨if space.isEmpty then none else some (".".intercalate space), name, args⟩

mutual

/-- The name as written. -/
def text : TypeName → String
  | ⟨space, name, args⟩ =>
    (match space with
      | some s => s ++ "."
      | none => "") ++ name ++
    (match args with
      | [] => ""
      | a :: as => "<" ++ ", ".intercalate (text a :: texts as) ++ ">")

/-- `text` of each name of a list. -/
def texts : List TypeName → List String
  | [] => []
  | t :: ts => text t :: texts ts

end

/-- The texts of a list are those of its names. -/
@[simp] theorem texts_eq_map (ts : List TypeName) : texts ts = ts.map text := by
  induction ts with
  | nil => rfl
  | cons t ts ih => simp [texts, ih]

/-- Type arguments between angle brackets; nothing at all when there are none. -/
def argumentText (args : List TypeName) : String :=
  if args.isEmpty then "" else "<" ++ ", ".intercalate (args.map text) ++ ">"

end TypeName

end Formula
