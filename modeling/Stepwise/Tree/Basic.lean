import Stepwise.Stage
import Stepwise.Value.Basic

/-!
# Trees

A syntax tree is a record with a tag and the parts that the tag asks for. Up to
`conditions` every expression node has the same four fields, empty ones null;
from `blocks` on a node has just the fields that it needs. Sequences are chains:
each member holds the following one in its field `next`.
-/

namespace Stepwise

/-- A syntax tree: a record with a tag. -/
abbrev Tree := Value

namespace Tree

/-- A node with the given parts. -/
def node (tag : String) (parts : Fields) : Tree :=
  .record (("tag", .text tag) :: parts)

/-- The four fields of every expression node up to `conditions`. -/
def uniform (tag : String) (value left right : Value) : Tree :=
  node tag [("value", value), ("left", left), ("right", right)]

/-- A number, truth value or name. -/
def leaf (st : Stage) (tag : String) (value : Value) : Tree :=
  if st.has .blocks then node tag [("value", value)] else uniform tag value .null .null

/-- An operator between two expressions. -/
def binary (st : Stage) (tag : String) (left right : Tree) : Tree :=
  if st.has .blocks then node tag [("left", left), ("right", right)]
  else uniform tag .null left right

/-- An operator before an expression. -/
def unary (st : Stage) (tag : String) (operand : Tree) : Tree :=
  if st.has .blocks then node tag [("value", operand)] else uniform tag .null operand .null

/-- An assignment. -/
def assign (st : Stage) (target value : Tree) : Tree :=
  if st.has .blocks then node "=" [("target", target), ("value", value)]
  else uniform "=" .null target value

/-- An `if`, with or without an `else`. -/
def branch (st : Stage) (condition consequence : Tree) (alternative : Option Tree) : Tree :=
  if st.has .blocks then
    node "if" (("condition", condition) :: ("then", consequence) ::
      (alternative.map fun a => (Key.text "else", a)).toList)
  else node "if" [("condition", condition), ("statement", consequence)]

/-- A `while`. -/
def loop (st : Stage) (condition body : Tree) : Tree :=
  node "while" [("condition", condition), (if st.has .blocks then "do" else "statement", body)]

/-- A block: the chain of its statements. An empty block is a node without a statement. -/
def block : List Tree → Tree
  | [] => node "block" []
  | [s] => node "block" [("statement", s)]
  | s :: rest => node "block" [("statement", s), ("next", block rest)]

/-- A function. -/
def function (parameters body : Tree) : Tree :=
  node "function" [("parameters", parameters), ("body", body)]

/-- A call; what is called is a name up to `functions` and any expression later. -/
def call (st : Stage) (callee arguments : Tree) : Tree :=
  node "<function_call>"
    [(if st.has .returns then "expression" else "identifier", callee), ("arguments", arguments)]

/-- A `return`, with or without a value. -/
def giveBack (value : Option Tree) : Tree :=
  node "return" (value.map fun v => (Key.text "value", v)).toList

/-- A `print`. -/
def output (arguments : Tree) : Tree :=
  node "print" [("arguments", arguments)]

/-- The node with its follower in a chain. -/
def follow (next : Tree) : Tree → Tree
  | .record fields => .record (Fields.set "next" next fields)
  | other => other

/-- The chain of nodes, null if there are none. -/
def chain : List Tree → Tree
  | [] => .null
  | [t] => t
  | t :: rest => follow (chain rest) t

end Tree

end Stepwise
