import Formula.Node

/-!
# Expression trees as text

A tree is written back like source text, with every block inside a block in parentheses and one
space between the items of a block. Numbers appear as the nearest `double`.
-/

namespace Formula

/-- The text of a constant. -/
def Value.render (v : Value) : String :=
  match v with
  | .str s => Text.quoted s
  | _ =>
    match v.toFloat? with
    | some x => Binary64.text x
    | none => v.inspect

/-- Joins the texts of the segments of a route; an indexer follows without a dot. -/
def joinSegments : List (Bool × String) → String
  | [] => ""
  | (_, first) :: rest =>
    first ++ String.join (rest.map fun (isIndexer, text) => if isIndexer then text else "." ++ text)

namespace Node

/-- A node's text as an item of a block: blocks stand in parentheses. -/
def parenthesize (n : Node) (text : String) : String :=
  if n.isBlock then "(" ++ text ++ ")" else text

mutual

/-- The node as text. -/
def render : Node → String
  | .constant _ value => value.render
  | .operator _ op => op.symbol.toString
  | .cast _ _ target signs operand =>
    " ".intercalate (("(" ++ target.text ++ ")") :: signs.map (·.2.symbol.toString) ++
      [operand.parenthesize (render operand)])
  | .route _ _ segments => joinSegments (renderSegments segments)
  | .block _ items => " ".intercalate (renderItems items)
  | .unresolved _ raw => raw

/-- Each item of a block. -/
def renderItems : List Node → List String
  | [] => []
  | n :: ns => n.parenthesize (render n) :: renderItems ns

/-- Each argument of a list. -/
def renderArgs : List Node → List String
  | [] => []
  | n :: ns => render n :: renderArgs ns

/-- Each segment of a route, and whether it is an indexer. -/
def renderSegments : List (Segment Node) → List (Bool × String)
  | [] => []
  | .member _ name generics :: rest =>
    (false, name ++ TypeName.argumentText generics) :: renderSegments rest
  | .method _ name generics args :: rest =>
    (false, name ++ TypeName.argumentText generics ++ "(" ++ ", ".intercalate (renderArgs args) ++
      ")") :: renderSegments rest
  | .indexer _ args :: rest =>
    (true, "[" ++ ", ".intercalate (renderArgs args) ++ "]") :: renderSegments rest

end

/-- A segment as text. -/
def renderSegment (s : Segment Node) : String := joinSegments (renderSegments [s])

end Node

end Formula
