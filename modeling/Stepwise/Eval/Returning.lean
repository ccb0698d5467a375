import Stepwise.Eval.Node

/-!
# The stage of `returns`

Here a node is read in one way only, and its completion says whether it is on its
way out of a function. A block, an `if` and a `while` stop where a part returns
and pass the value on; so does a call, since it completes as its body does.
-/

namespace Stepwise.Returning

variable (part : Evaluator)

/-- The value of a node, whether it returns or not. -/
def valueOf (node : Tree) : Action Value :=
  return (← part .statement node).value

/-- Binds parameters to the values of arguments in a new frame. -/
def bindArguments (frame : Fields) : List Tree → List Tree → Action (Fields × List Tree)
  | [], rest => return (frame, rest)
  | _ :: _, [] => throw .violation
  | p :: ps, a :: as => do
    let value ← valueOf part a
    let name ← p.field "value"
    bindArguments (← frame.bind name value) ps as

/-- A call: the callee's value, the arguments, then the body in the new frame. -/
def call (node : Tree) : Action Completion := do
  let callee ← Node.callField "expression" node
  let arguments ← Node.callField "arguments" node
  let (parameters, body) ← Node.functionParts (← valueOf part callee)
  let (frame, unused) ← bindArguments part [] (Tree.members parameters) (Tree.members arguments)
  if !(Tree.terminator parameters).isNull then throw .violation
  if !unused.isEmpty || !(Tree.terminator arguments).isNull then throw .violation
  let caller ← Action.environment
  let frame := Fields.set Name.parentField caller frame
  Action.inFrame (.record frame) (part .statement body)

/-- A statement keeps the value of a part only if the part returns. -/
def passOn (c : Completion) : Completion :=
  if c.returning then c else .normal .null

/-- The statements of a block, up to the first that returns. -/
def block (node : Tree) : Action Completion := do
  let first ← part .statement (← node.field "statement")
  let next ← node.optional "next"
  if next.truthy && !first.returning then return passOn (← part .statement next)
  else return passOn first

/-- An `if`: one branch, or nothing. -/
def branch (node : Tree) : Action Completion := do
  if (← valueOf part (← node.field "condition")).truthy then
    return passOn (← part .statement (← node.field "then"))
  else
    let alternative ← node.optional "else"
    if alternative.truthy then return passOn (← part .statement alternative)
    else return .normal .null

/-- A `while`. -/
def loop (budget : Nat) (node : Tree) : Action Completion := do
  let condition ← node.field "condition"
  Node.repeatWhile (part .statement condition)
    (do part .statement (← node.field "do")) budget

/-- A node with a tag. -/
def tagged (budget : Nat) (tag : Value) (node : Tree) : Action Completion := do
  if tag.isText "<number>" then return .normal (← Node.number node)
  else if tag.isText "<identifier>" then return .normal (← Node.lookup .returns node)
  else if tag.isText "function" then return .normal node
  else if tag.isText "<function_call>" then call part node
  else if tag.isText "return" then
    return ⟨← valueOf part (← node.optional "value"), true⟩
  else if tag.isText "negate" then
    return .normal (← (← Node.operand part node "value").negate)
  else if tag.isText "not" then
    return .normal (Operation.invert (← Node.operand part node "value"))
  else if tag.isText "block" then block part node
  else if tag.isText "if" then branch part node
  else if tag.isText "while" then loop part budget node
  else if tag.isText "print" then
    Node.printAll part (Tree.members (← node.optional "arguments"))
    return .normal .null
  else if tag.isText "=" then
    Node.assignment part "<identifier>" "target" "value" node
    return .normal .null
  else return .normal (← Node.operatorBefore part .returns tag node)

/-- One step of the evaluator. Null completes with null. -/
def step (budget : Nat) (node : Tree) : Action Completion :=
  match node with
  | .null => return .normal .null
  | node => do tagged part budget (← node.field "tag") node

end Stepwise.Returning
