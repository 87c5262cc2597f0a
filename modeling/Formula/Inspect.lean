import Formula.Binder

/-!
# Diagnostic texts

How types, what the host found, and prepared expressions are shown to whoever looks for a fault.
-/

namespace Formula

/-- A list in square brackets. -/
def bracketed (items : List String) : String := "[" ++ ", ".intercalate items ++ "]"

/-- Named fields between braces. -/
def record (name : String) (fields : List (String × String)) (more : List String) : String :=
  name ++ " \x7b " ++ ", ".intercalate (fields.map (fun f => f.1 ++ ": " ++ f.2) ++ more) ++ " \x7d"

namespace Ty

mutual

/-- The diagnostic text of a type. -/
def inspect : Ty → String
  | .void => "Void"
  | .object => "Object"
  | .bool => "Bool"
  | .string => "String"
  | .numeric kind => "Numeric(" ++ kind.tag ++ ")"
  | .array element rank =>
    record "Array" [("element", inspect element), ("rank", toString rank)] []
  | .named space name args =>
    record "Class" [("name", Text.quoted name),
      ("namespace", match space with
        | some s => "Some(" ++ Text.quoted s ++ ")"
        | none => "None"),
      ("generic_args", bracketed (inspectAll args))] []
  | .generic i => "Generic(" ++ toString i ++ ")"

/-- The diagnostic text of each type of a list. -/
def inspectAll : List Ty → List String
  | [] => []
  | t :: ts => inspect t :: inspectAll ts

end

end Ty

/-- The diagnostic text of a member. -/
def Member.inspect (m : Member) : String :=
  record "MemberDescriptor" [("name", Text.quoted m.name), ("ty", m.ty.inspect),
    ("is_static", toString m.isStatic)] [".."]

/-- The diagnostic text of a method. -/
def Method.inspect (m : Method) : String :=
  record "MethodDescriptor" [("name", Text.quoted m.name), ("declaring", m.owner.inspect),
    ("params", bracketed (Ty.inspectAll m.params)), ("return_type", m.result.inspect),
    ("is_static", toString m.isStatic)] [".."]

/-- The diagnostic text of an indexer. -/
def Indexer.inspect (i : Indexer) : String :=
  record "IndexerDescriptor" [("declaring", i.owner.inspect),
    ("params", bracketed (Ty.inspectAll i.params)), ("return_type", i.result.inspect)] [".."]

/-- The diagnostic text of a conversion. -/
def Conversion.inspect : Conversion → String
  | .identity => "Identity"
  | .numeric kind => "Numeric(" ++ kind.tag ++ ")"
  | .custom _ => "Custom(..)"

/-- The diagnostic text of a prepared expression. -/
def Prepared.inspect (p : Prepared) : String :=
  record "PreparedExpr" [("expr", Text.quoted p.root.render), ("nodes", toString p.nodes),
    ("cached", toString p.slots.filled)] []

end Formula
