import Stepwise.Eval.Node

/-!
# The stages before `returns`

Two families of evaluators.

- `Plain`, from `expressions` to `conditions`: numbers, names, operators and
  assignments. Trees of `if` and `while` are not evaluated yet and fail like any
  node whose operands are missing.
- `Structured`, from `blocks` to `functions`: control flow and calls. A statement
  completes with null, unless it is an expression. A call runs the function's
  body in a frame of its own and reports its parameters and arguments as it binds
  them; `return` shows its node and ends the program.
-/

namespace Stepwise.Plain

variable (st : Stage) (part : Evaluator)

/-- An expression. -/
def expression (node : Tree) : Action Value := do
  let tag ← node.field "tag"
  if tag.isText "number" then Node.number node
  else if tag.isText "identifier" && st.has .assignments then Node.lookup st node
  else if tag.isText "negate" && st.has .booleans then
    (← Node.operand part node "left").negate
  else if tag.isText "not" && st.has .booleans then
    return Operation.invert (← Node.operand part node "left")
  else Node.operatorAfter part st tag node

/-- An assignment or an expression. -/
def statement (node : Tree) : Action Value := do
  if (← node.field "tag").isText "=" && st.has .assignments then
    Node.assignment part "identifier" "left" "right" node
    return .null
  else expression st part node

/-- One step of the evaluator. -/
def step : Mode → Tree → Action Completion
  | .statement, node => return .normal (← statement st part node)
  | .expression, node => return .normal (← expression st part node)

end Stepwise.Plain

namespace Stepwise.Structured

variable (st : Stage) (part : Evaluator)

/-- Binds parameters to the values of arguments in a new frame, and prints each pair. -/
def bindArguments (frame : Fields) : List Tree → List Tree → Action (Fields × List Tree)
  | [], rest => return (frame, rest)
  | _ :: _, [] => throw .violation
  | p :: ps, a :: as => do
    Action.print ((← p.print) ++ " ")
    Action.printLine (← a.print)
    let name ← p.field "value"
    Action.printLine (← name.print)
    let value := (← part .statement a).value
    bindArguments (← frame.bind name value) ps as

/-- A call: the callee's value, the arguments, then the body in the new frame. -/
def call (node : Tree) : Action Value := do
  let callee ← Node.callField "identifier" node
  let arguments ← Node.callField "arguments" node
  let (parameters, body) ← Node.functionParts (← part .expression callee).value
  let (frame, unused) ← bindArguments part [] (Tree.members parameters) (Tree.members arguments)
  if !(Tree.terminator parameters).isNull then throw .violation
  if !unused.isEmpty || !(Tree.terminator arguments).isNull then throw .violation
  let caller ← Action.environment
  let frame := Fields.set Name.parentField caller frame
  return (← Action.inFrame (.record frame) (part .statement body)).value

/-- An expression. Operators have to be known in advance from `functions` on. -/
def expression (node : Tree) : Action Value := do
  let tag ← node.field "tag"
  if tag.isText "<number>" then Node.number node
  else if tag.isText "<identifier>" then Node.lookup st node
  else if tag.isText "negate" then (← Node.operand part node "value").negate
  else if tag.isText "not" then return Operation.invert (← Node.operand part node "value")
  else if !st.has .functions then Node.operatorAfter part st tag node
  else if tag.isText "function" then return node
  else if tag.isText "<function_call>" then call part node
  else if tag.isText "return" then
    Action.printLine (← node.print)
    throw (.exited 0)
  else Node.operatorBefore part st tag node

/-- The statements of a block in order. -/
def block (node : Tree) : Action Unit := do
  let _ ← part .statement (← node.field "statement")
  let next ← node.optional "next"
  if next.truthy then
    let _ ← part .statement next

/-- An `if`: one branch, or nothing. -/
def branch (node : Tree) : Action Unit := do
  if (← part .expression (← node.field "condition")).value.truthy then
    let _ ← part .statement (← node.field "then")
  else
    let alternative ← node.optional "else"
    if alternative.truthy then
      let _ ← part .statement alternative

/-- A `while`. -/
def loop (budget : Nat) (node : Tree) : Action Completion := do
  let condition ← node.field "condition"
  Node.repeatWhile (part .expression condition)
    (do part .statement (← node.field "do")) budget

/-- A statement. -/
def statement (budget : Nat) (node : Tree) : Action Completion := do
  let tag ← node.field "tag"
  if tag.isText "block" then
    block part node
    return .normal .null
  else if tag.isText "=" then
    Node.assignment part "<identifier>" "target" "value" node
    return .normal .null
  else if tag.isText "if" then
    branch part node
    return .normal .null
  else if tag.isText "while" then loop part budget node
  else if tag.isText "print" && st.has .functions then
    Node.printAll part (Tree.members (← node.optional "arguments"))
    return .normal .null
  else return .normal (← expression st part node)

/-- One step of the evaluator. -/
def step (budget : Nat) : Mode → Tree → Action Completion
  | .statement, node => statement st part budget node
  | .expression, node => return .normal (← expression st part node)

end Stepwise.Structured
