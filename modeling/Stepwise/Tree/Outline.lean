import Stepwise.Fault
import Stepwise.Tree.Basic

/-!
# Outlines

The outline of a tree is its tags and leaf values, one to a line, each part four
columns to the right of the node it belongs to. Up to `scopes` a node's parts are
its two operands, from `functions` on all parts of a fixed list that it has.
-/

namespace Stepwise.Tree

/-- Tags of the nodes that are shown by their value. -/
def leafTags : Stage → List String
  | .expressions => ["number"]
  | .assignments | .booleans | .conditions => ["number", "identifier"]
  | _ => ["<number>", "<boolean>", "<identifier>"]

/-- The parts that are shown from `functions` on, in order. -/
def shownParts : List String :=
  ["left", "right", "target", "value", "while", "do", "if", "then", "else"]

/-- So many spaces, none for a negative number. -/
def margin (indent : Int) : String :=
  String.ofList (List.replicate indent.toNat ' ')

/-- A part's outline, given the indentation. -/
abbrev Part := Int → Except Fault String

/-- The line of a node and the outlines of its parts below it. -/
def below (head : String) (indent : Int) (parts : List Part) : Except Fault String :=
  parts.foldlM (fun text part => return text ++ "\n" ++ (← part (indent + 4))) head

/-- An operand, if there is something in it. It has to be a field of the node. -/
def operand (fields : Fields) (parts : List (Key × Part)) (name : String) :
    Except Fault (List Part) :=
  match Fields.get? name fields, List.lookup (Key.text name) parts with
  | some v, some part => .ok (if v.truthy then [part] else [])
  | _, _ => .error (.missingField name)

/-- A node that is not a leaf, with the outlines of its fields. -/
def layout (st : Stage) (tag : String) (fields : Fields) (parts : List (Key × Part))
    (indent : Int) : Except Fault String := do
  let head := margin indent ++ tag
  if st.has .functions then
    below head indent (shownParts.filterMap fun name => List.lookup (Key.text name) parts)
  else
    let upper ← below head indent (← operand fields parts "left")
    below upper indent (← operand fields parts "right")

mutual

/-- The outline of a tree. -/
def outline (st : Stage) : Tree → Int → Except Fault String
  | .record fields, indent =>
    match Fields.get? "tag" fields with
    | none => .error (.missingField "tag")
    | some (.text tag) =>
      if (leafTags st).contains tag then
        match Fields.get? "value" fields with
        | none => .error (.missingField "value")
        | some v => return margin indent ++ (← v.print)
      else layout st tag fields (outlines st fields) indent
    | some _ => .error .wrongType
  | _, _ => .error .wrongType

/-- The outlines of all fields of a node. -/
def outlines (st : Stage) : Fields → List (Key × Part)
  | [] => []
  | (name, v) :: rest => (name, fun indent => outline st v indent) :: outlines st rest

end

end Stepwise.Tree
