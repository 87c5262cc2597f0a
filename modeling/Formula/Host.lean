import Formula.Value

/-!
# The host

The expression language knows no members, methods or conversions of its own: each look-up goes to
the host, a record of five functions. What the host finds comes with the function that carries it
out.
-/

namespace Formula

/-- The outcome of running something. -/
abbrev Outcome := Except RunError Value

/-- A property or field. The getter has a receiver unless the member is static. -/
structure Member where
  name : String
  ty : Ty
  isStatic : Bool
  get : Option Value → Outcome

/-- A method with the types of its parameters and of its result. -/
structure Method where
  name : String
  owner : Ty
  params : List Ty
  result : Ty
  isStatic : Bool
  invoke : Option Value → List Value → Outcome

/-- An indexer with the types of its indices and of its result. -/
structure Indexer where
  owner : Ty
  params : List Ty
  result : Ty
  get : Option Value → List Value → Outcome

/-- How a value of one type becomes a value of another without a cast. -/
inductive Conversion where
  | identity
  | numeric (kind : Kind)
  | custom (run : Value → Outcome)

/-- Carries a conversion out. -/
def Conversion.apply : Conversion → Value → Outcome
  | .identity, v => .ok v
  | .numeric kind, v => v.convert kind
  | .custom run, v => run v

/-- The look-ups a host offers. The lists of types that come with methods and indexers are what
each argument is converted to. -/
structure Host where
  resolveType : (space : Option String) → (name : String) → (args : List Ty) → Option Ty
  findMember : Ty → String → Option Member
  findMethod : Ty → String → (generics args : List Ty) → Option (Method × List Ty)
  findIndexer : Ty → (args : List Ty) → Option (Indexer × List Ty)
  implicitConversion : Ty → Ty → Option Conversion

namespace Host

mutual

/-- The type a written name stands for; its arguments have to stand for types first. -/
def resolve (host : Host) : TypeName → Option Ty
  | ⟨space, name, args⟩ =>
    match resolveAll host args with
    | none => none
    | some tys => host.resolveType space name tys

/-- `resolve` on each name of a list; all of them have to stand for types. -/
def resolveAll (host : Host) : List TypeName → Option (List Ty)
  | [] => some []
  | t :: ts =>
    match resolve host t with
    | none => none
    | some ty =>
      match resolveAll host ts with
      | none => none
      | some tys => some (ty :: tys)

end

end Host

end Formula
