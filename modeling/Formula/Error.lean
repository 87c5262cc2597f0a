import Formula.Operator
import Formula.Trap
import Formula.Ty
import Formula.TypeName

/-!
# Errors

Why an expression cannot be built from its text, and why a built one cannot be evaluated. The
constructors are the causes; each family has one function `message` with all its wording.
-/

namespace Formula

/-! ## Building -/

/-- What is wrong with the shape of a source text. -/
inductive ParseFault where
  | emptyExpression
  | unexpected (c : Char)
  | unclosedParenthesis
  | emptyParentheses
  | missingArgument
  | unclosedArguments (close : Char)
  | emptyIndexer
  | unterminatedString
  | unknownEscape (c : Char)
  | castWithoutOperand (target : TypeName)
  | strayBar
  | unclosedBar
  | missingOperand
  | unexpectedOperator (op : Operator)
  | missingOperator
  | missingRightOperand (op : ArithOp)
  | twoOperators
deriving Repr, BEq

/-- The wording of a fault. -/
def ParseFault.message : ParseFault → String
  | .emptyExpression => "empty expression"
  | .unexpected c => "unexpected '" ++ c.toString ++ "'"
  | .unclosedParenthesis => "missing ')' for '('"
  | .emptyParentheses => "empty parentheses"
  | .missingArgument => "missing argument"
  | .unclosedArguments c => "missing '" ++ c.toString ++ "' to close the argument list"
  | .emptyIndexer => "indexer requires an argument"
  | .unterminatedString => "unterminated string literal"
  | .unknownEscape c => "unknown escape sequence '\\" ++ c.toString ++ "'"
  | .castWithoutOperand t => "cast to '" ++ t.text ++ "' has no operand"
  | .strayBar => "'|' closes no absolute value"
  | .unclosedBar => "missing closing '|'"
  | .missingOperand => "missing operand"
  | .unexpectedOperator op => "unexpected operator '" ++ op.symbol.toString ++ "'"
  | .missingOperator => "missing operator between operands"
  | .missingRightOperand op => "operator '" ++ op.symbol.toString ++ "' has no right operand"
  | .twoOperators => "two operators in a row"

/-- What a call or an indexing asks for. -/
inductive Signature where
  | call (owner : Ty) (name : String) (generics args : List Ty)
  | index (owner : Ty) (args : List Ty)
deriving Repr

/-- A signature as written. -/
def Signature.text : Signature → String
  | .call owner name generics args =>
    owner.text ++ "." ++ name ++
      (if generics.isEmpty then "" else "<" ++ Ty.list generics ++ ">") ++
      "(" ++ Ty.list args ++ ")"
  | .index owner args => owner.text ++ "[" ++ Ty.list args ++ "]"

/-- Text that is well shaped but has no meaning. -/
inductive Unsupported where
  | unrecognized (raw : String)
  | typeAsValue (ty : Ty)
  | noReceiver
  | afterType (segment : String) (ty : Ty)
deriving Repr

/-- The wording of an unsupported construct. -/
def Unsupported.message : Unsupported → String
  | .unrecognized raw => "unrecognized input '" ++ raw ++ "'"
  | .typeAsValue ty => "type '" ++ ty.text ++ "' used as a value"
  | .noReceiver => "'this' without a base type"
  | .afterType segment ty => "'" ++ segment ++ "' cannot follow the type '" ++ ty.text ++ "'"

/-- The limits a binder sets. -/
inductive Limit where
  | sourceLength
  | nestingDepth
  | treeDepth
deriving Repr, DecidableEq

/-- The wording of a limit. -/
def Limit.text : Limit → String
  | .sourceLength => "source length"
  | .nestingDepth => "nesting depth"
  | .treeDepth => "expression depth"

/-- Why an expression cannot be built. Offsets count bytes of the source. -/
inductive BuildError where
  | parse (offset : Nat) (fault : ParseFault)
  | unknownIdentifier (name : String)
  | overloadNotFound (signature : Signature)
  | typeMismatch (op : ArithOp) (left right : Ty)
  | invalidCast (source target : Ty)
  | unsupported (construct : Unsupported)
  | limitExceeded (limit : Limit) (bound : Nat)
  /-- Building stopped there. -/
  | trapped (trap : Trap)
deriving Repr

/-- The wording of a build error. -/
def BuildError.message : BuildError → String
  | .parse offset fault => "parse error at offset " ++ toString offset ++ ": " ++ fault.message
  | .unknownIdentifier name => "unknown identifier: " ++ name
  | .overloadNotFound signature => "no overload matches " ++ signature.text
  | .typeMismatch op left right =>
    "invalid cast: no common numeric type for `" ++ left.text ++ " " ++ op.symbol.toString ++ " " ++
      right.text ++ "`"
  | .invalidCast source target => "invalid cast from " ++ source.text ++ " to " ++ target.text
  | .unsupported construct => "unsupported construct: " ++ construct.message
  | .limitExceeded limit bound =>
    limit.text ++ " exceeds the configured limit of " ++ toString bound
  | .trapped trap => trap.message

/-! ## Evaluation -/

/-- Why an evaluation fails. -/
inductive RunError where
  | tooFewValues (expected got : Nat)
  | missingReceiver
  | divideByZero
  | nullReference (reading : String)
  | indexOutOfRange (index : Int) (length : Nat)
  | invalidValue (expected found : String)
  | overflow (kind : Kind)
  | host (text : String)
  /-- The evaluation stopped there. -/
  | trapped (trap : Trap)
deriving Repr, DecidableEq

/-- The wording of an evaluation error. -/
def RunError.message : RunError → String
  | .tooFewValues expected got =>
    "values length mismatch: expected at least " ++ toString expected ++ ", got " ++ toString got
  | .missingReceiver => "expression reads `this` but no receiver was supplied"
  | .divideByZero => "attempted to divide by zero"
  | .nullReference reading => "null reference while reading " ++ reading
  | .indexOutOfRange index length =>
    "index " ++ toString index ++ " is out of range for length " ++ toString length
  | .invalidValue expected found =>
    "expected a value of type " ++ expected ++ ", found " ++ found
  | .overflow kind => "value is out of range for " ++ kind.keyword
  | .host text => "host error: " ++ text
  | .trapped trap => trap.message

end Formula
