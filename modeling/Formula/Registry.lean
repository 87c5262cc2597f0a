import Formula.Host
import Formula.Table

/-!
# Registries

A host made from declarations: classes with members, methods and indexers, more members for
built-in types, and conversions. Declarations only ever add, except that a member or a conversion
declared again replaces the one before.

* `Registry.cost?`: what an implicit conversion costs; overloads are ranked by the sum.
* `Registry.findMethod`, `Registry.findIndexer`: the cheapest applicable entry, the earliest of
  equals.
* `Registry.host`: the look-ups of a registry as a host.
-/

namespace Formula

/-- What the entries of a type are filed under. Classes that differ only in their type arguments
share their entries. -/
inductive TypeKey where
  | builtin (ty : Ty)
  | named (space : Option String) (name : String) (arity : Nat)
deriving Repr, DecidableEq

/-- The key of a type. -/
def TypeKey.of : Ty → TypeKey
  | .named space name args => .named space name args.length
  | ty => .builtin ty

/-- A registered method and the number of its own type parameters. -/
structure MethodEntry where
  method : Method
  generics : Nat

/-- What is registered for one key. -/
structure ClassEntry where
  members : Table String Member
  methods : List MethodEntry
  indexers : List Indexer

/-- Nothing registered. -/
def ClassEntry.empty : ClassEntry := ⟨.empty, [], []⟩

/-- A host made from declarations. -/
structure Registry where
  classes : Table TypeKey ClassEntry
  conversions : Table (Ty × Ty) (Value → Outcome)

/-! ## Declarations -/

/-- Something a class or a built-in type can be given. Instance members need a receiver; the type
parameters of a method come after those of its class. -/
inductive ClassItem where
  | property (name : String) (ty : Ty) (get : Value → Outcome)
  | staticProperty (name : String) (ty : Ty) (get : Outcome)
  | method (name : String) (generics : Nat) (params : List Ty) (result : Ty)
      (invoke : Value → List Value → Outcome)
  | staticMethod (name : String) (generics : Nat) (params : List Ty) (result : Ty)
      (invoke : List Value → Outcome)
  | indexer (params : List Ty) (result : Ty) (get : Value → List Value → Outcome)

/-- Hands the receiver on, which has to be there. -/
def withReceiver (run : Value → Outcome) : Option Value → Outcome
  | some receiver => run receiver
  | none => .error .missingReceiver

namespace ClassItem

/-- The member that an item is. -/
def member? : ClassItem → Option Member
  | .property name ty get => some ⟨name, ty, false, withReceiver get⟩
  | .staticProperty name ty get => some ⟨name, ty, true, fun _ => get⟩
  | _ => none

/-- The method of the type `owner` that an item is. -/
def method? (owner : Ty) : ClassItem → Option MethodEntry
  | .method name generics params result invoke =>
    let run (receiver : Option Value) (args : List Value) : Outcome :=
      withReceiver (invoke · args) receiver
    some ⟨⟨name, owner, params, result, false, run⟩, generics⟩
  | .staticMethod name generics params result invoke =>
    some ⟨⟨name, owner, params, result, true, fun _ args => invoke args⟩, generics⟩
  | _ => none

/-- The indexer of the type `owner` that an item is. -/
def indexer? (owner : Ty) : ClassItem → Option Indexer
  | .indexer params result get =>
    let run (receiver : Option Value) (args : List Value) : Outcome :=
      withReceiver (get · args) receiver
    some ⟨owner, params, result, run⟩
  | _ => none

end ClassItem

/-- Adds an item to what is registered for the type `owner`. A member replaces one of its name. -/
def ClassEntry.add (owner : Ty) (entry : ClassEntry) (item : ClassItem) : ClassEntry where
  members :=
    match item.member? with
    | some m => entry.members.insert m.name m
    | none => entry.members
  methods := entry.methods ++ (item.method? owner).toList
  indexers := entry.indexers ++ (item.indexer? owner).toList

/-- A declaration. -/
inductive Declaration where
  | extend (ty : Ty) (items : List ClassItem)
  | conversion (source target : Ty) (run : Value → Outcome)

namespace Registry

/-- The registry that knows no types. -/
def empty : Registry := ⟨.empty, .empty⟩

/-- Carries a declaration out. A type that is given nothing is known from then on all the same. -/
def declare (r : Registry) : Declaration → Registry
  | .extend ty items =>
    let change (entry : Option ClassEntry) : ClassEntry :=
      items.foldl (ClassEntry.add ty) (entry.getD .empty)
    { r with classes := r.classes.alter (.of ty) change }
  | .conversion source target run =>
    { r with conversions := r.conversions.insert (source, target) run }

/-- Carries declarations out in order. -/
def declareAll (r : Registry) (declarations : List Declaration) : Registry :=
  declarations.foldl declare r

/-! ## Conversions -/

/-- The conversion from one type to another: none is needed to the same type and to `object`,
numbers widen, and for the rest the host has to have declared one. -/
def implicitConversion (r : Registry) (source target : Ty) : Option Conversion :=
  if source = target then some .identity
  else
    let declared := (r.conversions.get? (source, target)).map Conversion.custom
    match source, target with
    | .numeric a, .numeric b => if a.widens b then some (.numeric b) else declared
    | _, .object => some .identity
    | _, _ => declared

/-- Cost of a conversion to `object`. -/
def boxingCost : Nat := 64

/-- Cost of a declared conversion. -/
def customCost : Nat := 32

/-- Cost of a conversion: nothing for the same type, the distance in rank for a widening. -/
def cost? (r : Registry) (source target : Ty) : Option Nat :=
  if source = target then some 0
  else
    let declared := if r.conversions.contains (source, target) then some customCost else none
    match source, target with
    | .numeric a, .numeric b => if a.widens b then some (b.rank - a.rank) else declared
    | _, .object => some boxingCost
    | _, _ => declared

/-- Sum of the costs of converting each argument to its parameter. -/
def totalCost? (r : Registry) : List Ty → List Ty → Option Nat
  | a :: args, p :: params =>
    match r.cost? a p with
    | none => none
    | some first => (r.totalCost? args params).map (first + ·)
  | _, _ => some 0

/-! ## Look-ups -/

/-- The first entry of least cost. -/
def cheapest {α : Type} : List (Nat × α) → Option (Nat × α)
  | [] => none
  | x :: xs =>
    match cheapest xs with
    | none => some x
    | some y => if y.1 < x.1 then some y else some x

/-- The type that a keyword names. -/
def keywordType (name : String) : Option Ty :=
  match name with
  | "bool" => some .bool
  | "string" => some .string
  | "object" => some .object
  | _ => (Kind.all.find? (·.keyword = name)).map .numeric

/-- The built-in type that a name of the namespace `System` names. -/
def systemType (name : String) : Option Ty :=
  match name with
  | "Boolean" => some .bool
  | "String" => some .string
  | "Object" => some .object
  | _ => (Kind.all.find? (·.systemName = name)).map .numeric

/-- The built-in type of a name without arguments. -/
def builtinType (space : Option String) (name : String) (args : List Ty) : Option Ty :=
  if args.isEmpty then
    match space with
    | none => keywordType name
    | some "System" => systemType name
    | some _ => none
  else none

/-- The type of a name: a built-in type, or a class declared with that many parameters. -/
def resolveType (r : Registry) (space : Option String) (name : String) (args : List Ty) :
    Option Ty :=
  match builtinType space name args with
  | some ty => some ty
  | none =>
    if r.classes.contains (.named space name args.length) then some (.named space name args)
    else none

/-- Hands the array on, which the receiver has to be. -/
def withArray (run : Grid Value → Outcome) : Option Value → Outcome
  | some (.array grid) => run grid
  | some v => .error (.invalidValue "array" v.typeName)
  | none => .error (.invalidValue "array" "nothing")

/-- The length of an array, the one member every array has. -/
def arrayLength : Member :=
  ⟨"Length", .i32, false, withArray fun grid => .ok (.ofInt .i32 grid.length)⟩

/-- The member of a name. -/
def findMember (r : Registry) (ty : Ty) (name : String) : Option Member :=
  match ty with
  | .array .. => if name = "Length" then some arrayLength else none
  | _ =>
    match r.classes.get? (.of ty) with
    | none => none
    | some entry =>
      (entry.members.get? name).map fun m => { m with ty := Ty.substitute ty.args m.ty }

/-- Reads each index as an integer of 64 bits. -/
def indices : List Value → Except RunError (List Int)
  | [] => .ok []
  | v :: vs =>
    match v.toInt64? with
    | none => .error (.invalidValue "integer index" v.typeName)
    | some i => (indices vs).map (i :: ·)

/-- The indexer of an array type. -/
def arrayIndexer (ty element : Ty) (rank : Nat) : Indexer :=
  let get (receiver : Option Value) (args : List Value) : Outcome :=
    withArray (fun grid => (indices args).bind grid.get) receiver
  ⟨ty, List.replicate rank .i64, element, get⟩

/-- The best method of a name for the types of the arguments. -/
def findMethod (r : Registry) (ty : Ty) (name : String) (generics args : List Ty) :
    Option (Method × List Ty) :=
  match r.classes.get? (.of ty) with
  | none => none
  | some entry =>
    let substitution := ty.args ++ generics
    let candidate (e : MethodEntry) : Option (Nat × Method × List Ty) :=
      if e.method.name = name ∧ e.generics = generics.length ∧
          e.method.params.length = args.length then
        let params := e.method.params.map (Ty.substitute substitution)
        (r.totalCost? args params).map (·, e.method, params)
      else none
    (cheapest (entry.methods.filterMap candidate)).map fun (_, m, params) =>
      ({ m with owner := ty, params, result := Ty.substitute substitution m.result }, params)

/-- The best indexer for the types of the indices. -/
def findIndexer (r : Registry) (ty : Ty) (args : List Ty) : Option (Indexer × List Ty) :=
  match ty with
  | .array element rank =>
    if args.length = rank ∧ args.all fun a => (r.cost? a .i64).isSome then
      let indexer := arrayIndexer ty element rank
      some (indexer, indexer.params)
    else none
  | _ =>
    match r.classes.get? (.of ty) with
    | none => none
    | some entry =>
      let candidate (i : Indexer) : Option (Nat × Indexer × List Ty) :=
        if i.params.length = args.length then
          let params := i.params.map (Ty.substitute ty.args)
          (r.totalCost? args params).map (·, i, params)
        else none
      (cheapest (entry.indexers.filterMap candidate)).map fun (_, i, params) =>
        ({ i with owner := ty, params, result := Ty.substitute ty.args i.result }, params)

/-- The look-ups of the registry. -/
def host (r : Registry) : Host where
  resolveType := r.resolveType
  findMember := r.findMember
  findMethod := r.findMethod
  findIndexer := r.findIndexer
  implicitConversion := r.implicitConversion

end Registry

end Formula
