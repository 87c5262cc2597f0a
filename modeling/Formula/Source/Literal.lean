import Formula.Source.Cursor
import Formula.Value

/-!
# Literals

String and numeric literals.

* `readString`: a text between double quotes. Seven characters can be escaped by a backslash.
* `readNumber`: hexadecimal, binary and decimal numerals, with a suffix for the kind. A numeral
  that its kind cannot hold, or that runs straight into a name, is kept as raw text; one of
  `decimal` whose digits cannot be counted traps.
-/

namespace Formula

/-- A token that is a constant, or text that is none. -/
inductive Lexeme where
  | constant (value : Value)
  | unresolved (raw : String)

/-! ## Strings -/

/-- What a character stands for behind a backslash. -/
def unescape? (c : Char) : Option Char :=
  if c = '"' then some '"'
  else if c = '\\' then some '\\'
  else if c = '\'' then some '\''
  else if c = 'n' then some '\n'
  else if c = 't' then some '\t'
  else if c = 'r' then some '\r'
  else if c = '0' then some '\x00'
  else none

/-- The character whose number is the first byte of `c` in UTF-8. -/
def leadByte (c : Char) : Char :=
  let n := c.toNat
  Char.ofNat (
    if n < 0x80 then n
    else if n < 0x800 then 0xc0 + n / 0x40
    else if n < 0x10000 then 0xe0 + n / 0x1000
    else 0xf0 + n / 0x40000)

/-- Reads up to the closing quote. The opening quote is at `opening`, and `offset` is that of the
text. -/
def readStringBody (opening offset : Nat) : List Char → Except BuildError (List Char × Cursor)
  | [] => .error (.parse opening .unterminatedString)
  | c :: rest =>
    if c = '"' then .ok ([], ⟨rest, offset + 1⟩)
    else if c = '\\' then
      match rest with
      | [] => .error (.parse opening .unterminatedString)
      | e :: rest =>
        match unescape? e with
        | none => .error (.parse (offset + 1) (.unknownEscape (leadByte e)))
        | some x =>
          match readStringBody opening (offset + 2) rest with
          | .error e => .error e
          | .ok (xs, after) => .ok (x :: xs, after)
    else
      match readStringBody opening (offset + c.utf8Size) rest with
      | .error e => .error e
      | .ok (xs, after) => .ok (c :: xs, after)

/-- Reads a string literal; the cursor is on the opening quote. -/
def readString (c : Cursor) : Except BuildError (Value × Cursor) :=
  match readStringBody c.offset (c.offset + 1) c.next.rest with
  | .error e => .error e
  | .ok (xs, after) => .ok (.str (String.ofList xs), after)

/-! ## Numbers -/

/-- The suffix of a numeral: the kind it asks for. -/
inductive Suffix where
  | single | double | decimal | long | unsigned
deriving Repr, DecidableEq

/-- The suffix a letter stands for, in either case. -/
def Suffix.ofChar? (c : Char) : Option Suffix :=
  match c.toLower with
  | 'f' => some .single
  | 'd' => some .double
  | 'm' => some .decimal
  | 'l' => some .long
  | 'u' => some .unsigned
  | _ => none

/-- Whether the suffix asks for an integer. -/
def Suffix.isInteger : Suffix → Bool
  | .long | .unsigned => true
  | _ => false

/-- Splits a suffix of an allowed sort off. -/
def takeSuffix (allowed : Suffix → Bool) (cs : List Char) : Option Suffix × List Char :=
  match cs with
  | [] => (none, [])
  | c :: rest =>
    match Suffix.ofChar? c with
    | none => (none, cs)
    | some s => if allowed s then (some s, rest) else (none, cs)

/-- The value of a digit, also beyond nine. -/
def digitValue (c : Char) : Nat :=
  if c.isDigit then c.toNat - '0'.toNat else c.toLower.toNat - 'a'.toNat + 10

/-- The number that digits spell. -/
def digitsValue (base : Nat) (cs : List Char) : Nat :=
  cs.foldl (fun n c => n * base + digitValue c) 0

/-- The constant of an integer numeral. Without a suffix it has the first of four kinds that holds
it; nothing holds `2 ^ 64`. -/
def integerLiteral (n : Nat) (suffix : Option Suffix) : Option Value :=
  let fitting (kinds : List IntKind) : Option Value :=
    (kinds.find? (·.holds n)).map fun k => .ofInt k n
  match suffix with
  | none => fitting [.i32, .u32, .i64, .u64]
  | some .long => fitting [.i64]
  | some .unsigned => fitting [.u32, .u64]
  | some _ => none

/-- Reads the digits after a radix mark, and a suffix if the number is one of 64 bits. -/
def takeRadix (base : Nat) (isDigit : Char → Bool) (cs : List Char) : Option Value × List Char :=
  let digits := cs.takeWhile isDigit
  let rest := cs.dropWhile isDigit
  let n := digitsValue base digits
  if digits.isEmpty || !IntKind.u64.holds n then (none, rest)
  else
    let (suffix, rest) := takeSuffix Suffix.isInteger rest
    (integerLiteral n suffix, rest)

/-- Splits a fraction off: a dot that a digit follows, and all digits after it. -/
def takeFraction (cs : List Char) : Option (List Char) × List Char :=
  match cs with
  | dot :: rest =>
    if dot = '.' ∧ (rest.head?.any Char.isDigit) then
      (some (rest.takeWhile Char.isDigit), rest.dropWhile Char.isDigit)
    else (none, cs)
  | [] => (none, [])

/-- Splits a sign off. -/
def takeSign (cs : List Char) : Bool × List Char :=
  match cs with
  | c :: rest => if c = '-' then (true, rest) else if c = '+' then (false, rest) else (false, cs)
  | [] => (false, [])

/-- Splits an exponent off: its letter, perhaps a sign, and at least one digit. -/
def takeExponent (cs : List Char) : Option Int × List Char :=
  match cs with
  | e :: rest =>
    let (negative, digits) := takeSign rest
    if (e = 'e' ∨ e = 'E') ∧ digits.head?.any Char.isDigit then
      let n : Int := digitsValue 10 (digits.takeWhile Char.isDigit)
      (some (if negative then -n else n), digits.dropWhile Char.isDigit)
    else (none, cs)
  | [] => (none, [])

/-- The constant of a decimal numeral: its digits, how many of them are fractional, its exponent,
whether it has a fraction or an exponent, and its suffix. -/
def decimalLiteral (digits places : Nat) (exponent : Int) (fractional : Bool)
    (suffix : Option Suffix) : Except Trap (Option Value) :=
  let power := exponent - places
  let single := Value.f32 (Binary32.ofPattern (FloatFormat.single.ofDecimal digits power))
  let double := Value.f64 (Binary64.ofPattern (FloatFormat.double.ofDecimal digits power))
  match suffix with
  | some .single => .ok (some single)
  | some .double => .ok (some double)
  | some .decimal =>
    match Decimal.ofDigits? digits places exponent with
    | none => .ok none
    | some d => d.fit?.map fun fitting => fitting.map Value.decimal
  | none => .ok (if fractional then some double else integerLiteral digits none)
  | some s => .ok (if fractional then none else integerLiteral digits (some s))

/-- Reads a decimal numeral. A dot that starts no fraction is passed over and gives nothing. -/
def takeDecimal (cs : List Char) : Except Trap (Option Value) × List Char :=
  let whole := cs.takeWhile Char.isDigit
  let (fraction, rest) := takeFraction (cs.dropWhile Char.isDigit)
  if whole.isEmpty && fraction.isNone then (.ok none, cs.drop 1)
  else
    let (exponent, rest) := takeExponent rest
    let (suffix, rest) := takeSuffix (fun _ => true) rest
    let digits := digitsValue 10 (whole ++ fraction.getD [])
    (decimalLiteral digits (fraction.getD []).length (exponent.getD 0)
      (fraction.isSome || exponent.isSome) suffix, rest)

/-- Whether a character is a hexadecimal digit. -/
def isHexDigit (c : Char) : Bool :=
  c.isDigit || ('a' ≤ c.toLower && c.toLower ≤ 'f')

/-- Whether a character is a binary digit. -/
def isBinaryDigit (c : Char) : Bool := c = '0' || c = '1'

/-- The base that the first two characters of a numeral announce, with its digits. -/
def radix? (cs : List Char) : Option (Nat × (Char → Bool)) :=
  match cs with
  | zero :: mark :: _ =>
    if zero = '0' ∧ mark.toLower = 'x' then some (16, isHexDigit)
    else if zero = '0' ∧ mark.toLower = 'b' then some (2, isBinaryDigit)
    else none
  | _ => none

/-- Reads a numeral in any base. -/
def takeNumber (cs : List Char) : Except Trap (Option Value) × List Char :=
  match radix? cs with
  | some (base, isDigit) =>
    let taken := takeRadix base isDigit (cs.drop 2)
    (.ok taken.1, taken.2)
  | none => takeDecimal cs

/-- Reads a numeric literal; the cursor is on a digit or a dot. What runs on into a name is no
literal. -/
def readNumber (c : Cursor) : Except Trap Lexeme × Cursor :=
  let (value, rest) := takeNumber c.rest
  let after := rest.dropWhile isNameChar
  let raw := c.rest.take (c.rest.length - after.length)
  let lexeme : Option Value → Lexeme
    | some v => if rest.length = after.length then .constant v else .unresolved (String.ofList raw)
    | none => .unresolved (String.ofList raw)
  (value.map lexeme, ⟨after, c.offset + byteLength raw⟩)

/-! ## Anything else -/

/-- Whether a character goes on a run of text that starts no token. -/
def isStray (c : Char) : Bool := !isBlank c && !isNameChar c && !isStructural c

/-- Reads a character that starts no token, and the run of such characters after it. -/
def readStray (c : Cursor) : String × Cursor :=
  let (run, after) := c.next.span isStray
  (String.ofList (c.rest.take 1 ++ run), after)

end Formula
