import Formula.Kind

/-!
# Types

The types an expression can have: the built-in ones, rectangular arrays, and classes of the host,
which may be generic. `Ty.generic i` stands for the `i`-th type parameter inside a signature and
goes away by `Ty.substitute`.
-/

namespace Formula

/-- A type. `object` is the top type: every value converts to it. -/
inductive Ty where
  | void
  | object
  | bool
  | string
  | numeric (kind : Kind)
  | array (element : Ty) (rank : Nat)
  | named (space : Option String) (name : String) (args : List Ty)
  | generic (index : Nat)
deriving Repr, Inhabited

namespace Ty

/-- The integer type of a kind. -/
abbrev int (k : IntKind) : Ty := .numeric (.int k)

/-- `int`, the type of small literals, of lengths and of counts. -/
abbrev i32 : Ty := .int .i32

/-- `long`, the type of array indices. -/
abbrev i64 : Ty := .int .i64

/-- `double`. -/
abbrev f64 : Ty := .numeric .f64

/-! ## Equality -/

mutual

/-- Structural equality of types. -/
def same : Ty → Ty → Bool
  | .void, .void => true
  | .object, .object => true
  | .bool, .bool => true
  | .string, .string => true
  | .numeric a, .numeric b => a == b
  | .array a m, .array b n => same a b && m == n
  | .named s n as, .named t m bs => s == t && n == m && sameAll as bs
  | .generic i, .generic j => i == j
  | _, _ => false

/-- Structural equality of lists of types. -/
def sameAll : List Ty → List Ty → Bool
  | [], [] => true
  | a :: as, b :: bs => same a b && sameAll as bs
  | _, _ => false

end

mutual

private theorem same_refl : (a : Ty) → same a a = true
  | .void | .object | .bool | .string => rfl
  | .numeric k => by simp [same]
  | .array e _ => by simp [same, same_refl e]
  | .named _ _ args => by simp [same, sameAll_refl args]
  | .generic _ => by simp [same]

private theorem sameAll_refl : (as : List Ty) → sameAll as as = true
  | [] => rfl
  | a :: as => by simp [sameAll, same_refl a, sameAll_refl as]

end

mutual

private theorem eq_of_same : (a b : Ty) → same a b = true → a = b
  | .void, b, h => by cases b <;> simp_all [same]
  | .object, b, h => by cases b <;> simp_all [same]
  | .bool, b, h => by cases b <;> simp_all [same]
  | .string, b, h => by cases b <;> simp_all [same]
  | .numeric _, b, h => by cases b <;> simp_all [same]
  | .array e _, b, h => by
    cases b with
    | array e' _ =>
      simp only [same, Bool.and_eq_true, beq_iff_eq] at h
      rw [eq_of_same e e' h.1, h.2]
    | _ => simp [same] at h
  | .named _ _ as, b, h => by
    cases b with
    | named _ _ bs =>
      simp only [same, Bool.and_eq_true, beq_iff_eq] at h
      rw [h.1.1, h.1.2, eq_of_sameAll as bs h.2]
    | _ => simp [same] at h
  | .generic _, b, h => by cases b <;> simp_all [same]

private theorem eq_of_sameAll : (as bs : List Ty) → sameAll as bs = true → as = bs
  | [], bs, h => by cases bs <;> simp_all [sameAll]
  | a :: as, bs, h => by
    cases bs with
    | nil => simp [sameAll] at h
    | cons b bs =>
      simp only [sameAll, Bool.and_eq_true] at h
      rw [eq_of_same a b h.1, eq_of_sameAll as bs h.2]

end

/-- `same` decides equality. -/
theorem same_iff {a b : Ty} : same a b = true ↔ a = b :=
  ⟨eq_of_same a b, fun h => h ▸ same_refl a⟩

instance : DecidableEq Ty := fun _ _ => decidable_of_iff _ same_iff

/-! ## Numeric types -/

/-- The kind of a numeric type. -/
def kind? : Ty → Option Kind
  | .numeric k => some k
  | _ => none

/-- Whether the type is numeric. -/
def isNumeric (t : Ty) : Bool := t.kind?.isSome

/-- The kind the operands of an arithmetic operator are promoted to, if both are numeric. -/
def promote? (a b : Ty) : Option Kind :=
  match a, b with
  | .numeric a, .numeric b => some (a.promote b)
  | _, _ => none

/-! ## Generic classes -/

/-- The type arguments of a class, none for any other type. -/
def args : Ty → List Ty
  | .named _ _ args => args
  | _ => []

/-- The class `name` of `space` with `arity` type parameters, applied to those parameters. -/
def declared (space : Option String) (name : String) (arity : Nat) : Ty :=
  .named space name ((List.range arity).map .generic)

mutual

/-- Puts `args` for the type parameters; a parameter that has no argument stays. -/
def substitute (args : List Ty) : Ty → Ty
  | .generic i => args.getD i (.generic i)
  | .array element rank => .array (substitute args element) rank
  | .named space name inner => .named space name (substituteAll args inner)
  | t => t

/-- `substitute` on each type of a list. -/
def substituteAll (args : List Ty) : List Ty → List Ty
  | [] => []
  | t :: ts => substitute args t :: substituteAll args ts

end

/-- Substitution in a list is substitution in each of its types. -/
@[simp] theorem substituteAll_eq_map (args ts : List Ty) :
    substituteAll args ts = ts.map (substitute args) := by
  induction ts with
  | nil => rfl
  | cons t ts ih => simp [substituteAll, ih]

/-! ## Text -/

mutual

/-- The type as written in source text. -/
def text : Ty → String
  | .void => "void"
  | .object => "object"
  | .bool => "bool"
  | .string => "string"
  | .numeric k => k.keyword
  | .array element rank =>
    text element ++ "[" ++ String.ofList (List.replicate (rank - 1) ',') ++ "]"
  | .named space name args =>
    (match space with
      | some s => s ++ "."
      | none => "") ++ name ++
    (match args with
      | [] => ""
      | a :: as => "<" ++ ", ".intercalate (text a :: texts as) ++ ">")
  | .generic i => "T" ++ toString i

/-- `text` of each type of a list. -/
def texts : List Ty → List String
  | [] => []
  | t :: ts => text t :: texts ts

end

/-- The texts of a list are those of its types. -/
@[simp] theorem texts_eq_map (ts : List Ty) : texts ts = ts.map text := by
  induction ts with
  | nil => rfl
  | cons t ts ih => simp [texts, ih]

/-- Types separated by commas, as in argument lists. -/
def list (ts : List Ty) : String := ", ".intercalate (ts.map text)

end Ty

end Formula
