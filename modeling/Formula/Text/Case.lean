import Formula.Text.CaseTable

/-!
# Upper and lower case

Full case mapping of a text, independent of any language: one character may become several, and a
capital sigma at the end of a word becomes the final small sigma.
-/

namespace Formula.Text

/-- Maps one code point by a list of long mappings and a table of rows. -/
def mapCase (long : List (Nat × List Nat)) (rows : List CaseRow) (c : Char) : List Char :=
  match long.lookup c.toNat with
  | some image => image.map Char.ofNat
  | none =>
    match rows.findSome? (·.image? c.toNat) with
    | some image => [Char.ofNat image]
    | none => [c]

/-- Whether a text goes on, after characters without weight, with a character that has a case. -/
def meetsCased (cs : List Char) : Bool :=
  match cs.dropWhile (inRuns ignorableRuns ·.toNat) with
  | [] => false
  | c :: _ => inRuns casedRuns c.toNat

/-- Lower case of `rest`, which stands after the characters `before`, last one first. -/
def lowerFrom (before : List Char) : List Char → List Char
  | [] => []
  | c :: rest =>
    (if c = 'Σ' then
      [if meetsCased before && !meetsCased rest then 'ς' else 'σ']
    else mapCase lowerLong lowerRows c) ++ lowerFrom (c :: before) rest

/-- The text in upper case. -/
def toUpper (s : String) : String :=
  String.ofList (s.toList.flatMap (mapCase upperLong upperRows))

/-- The text in lower case. -/
def toLower (s : String) : String := String.ofList (lowerFrom [] s.toList)

end Formula.Text
