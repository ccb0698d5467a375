import Stepwise.Eval.Action
import Stepwise.Eval.Name
import Stepwise.Eval.Operation
import Stepwise.Tree.Basic

/-!
# Evaluating nodes

What the evaluators of all stages share. A node is read as a statement or as an
expression (`Mode`) and completes with a value, or by returning one from the
function it stands in (`Completion`). Each step is given the evaluator for the
parts of a node, `part`.
-/

namespace Stepwise

/-- How a node completes: with a value, which may be on its way out of a function. -/
structure Completion where
  value : Value
  returning : Bool

/-- A completion that goes on behind the node. -/
def Completion.normal (value : Value) : Completion := ⟨value, false⟩

/-- The two ways to read a node. -/
inductive Mode where
  | statement
  | expression
deriving DecidableEq, Repr

/-- An evaluator of nodes. -/
abbrev Evaluator := Mode → Tree → Action Completion

namespace Tree

mutual

/-- The members of a chain; it ends at the first one with nothing in it. -/
def members : Tree → List Tree
  | .record fields => if fields.isEmpty then [] else .record fields :: followers fields
  | other => if other.truthy then [other] else []

/-- The members behind a node with these fields. -/
def followers : Fields → List Tree
  | [] => []
  | (key, v) :: rest => if key = "next" then members v else followers rest

end

mutual

/-- What stands behind the last member of a chain. -/
def terminator : Tree → Value
  | .record fields => if fields.isEmpty then .record [] else followersEnd fields
  | other => if other.truthy then .null else other

/-- What stands behind the last member of a chain that goes on with these fields. -/
def followersEnd : Fields → Value
  | [] => .null
  | (key, v) :: rest => if key = "next" then terminator v else followersEnd rest

end

end Tree

namespace Node

/-- A number node gives the number it holds. -/
def number (node : Tree) : Except Fault Value := do
  match ← node.field "value" with
  | .int n => return .int n
  | .float x => return .float x
  | other => throw (.badNumber other)

/-- The name that a name node holds. -/
def name (node : Tree) : Except Fault String := do
  match ← node.field "value" with
  | .text s => return s
  | other => throw (.badName other)

/-- The value of a name: in one record up to `blocks`, in a chain of frames later. -/
def lookup (st : Stage) (node : Tree) : Action Value := do
  let name ← name node
  let env ← Action.environment
  if st.has .scopes then Name.resolve name env else Name.find name env

variable (part : Evaluator)

/-- The value of a part that is read as a statement. -/
def operand (node : Tree) (field : String) : Action Value :=
  return (← part .statement (← node.field field)).value

/-- The two operands of a binary operator, the left one first. -/
def operands (node : Tree) : Action (Value × Value) := do
  let left ← operand part node "left"
  let right ← operand part node "right"
  return (left, right)

/-- An operator node whose operands are evaluated before the operator is looked at. -/
def operatorAfter (st : Stage) (tag : Value) (node : Tree) : Action Value := do
  let (left, right) ← operands part node
  match Operation.find? st tag with
  | some op => op left right
  | none => throw (.unknownOperation tag)

/-- An operator node whose operator has to be known before its operands are evaluated. -/
def operatorBefore (st : Stage) (tag : Value) (node : Tree) : Action Value :=
  match Operation.find? st tag with
  | some op => do
    let (left, right) ← operands part node
    op left right
  | none => throw (.unknownOperation tag)

/-- An assignment to the name in the field `target` of the expression in the field `source`. -/
def assignment (nameTag target source : String) (node : Tree) : Action Unit := do
  let place ← node.field target
  if !(← place.field "tag").isText nameTag then throw .badTarget
  let name ← place.field "value"
  let expression ← node.field source
  if !expression.truthy then throw .emptyAssignment
  let value := (← part .expression expression).value
  Action.assign name value

/-- Repeats a body while a condition holds, until the body returns. -/
def repeatWhile (condition body : Action Completion) : Nat → Action Completion
  | 0 => throw .exhausted
  | budget + 1 => do
    if (← condition).value.truthy then
      let done ← body
      if done.returning then return done else repeatWhile condition body budget
    else return .normal .null

/-- Prints the values of expressions, a space behind each, and a line end. -/
def printAll : List Tree → Action Unit
  | [] => Action.print "\n"
  | e :: rest => do
    let value := (← part .expression e).value
    Action.print ((← value.print) ++ " ")
    printAll rest

/-- The function that a value is: its parameters and its body. -/
def functionParts (f : Value) : Except Fault (Value × Tree) := do
  if !(← f.field "tag").isText "function" then throw .violation
  match f with
  | .record fields =>
    match Fields.get? "parameters" fields, Fields.get? "body" fields with
    | some parameters, some body => return (parameters, body)
    | _, _ => throw .violation
  | _ => throw .wrongType

/-- The field of a call, which has to be there. -/
def callField (name : String) (node : Tree) : Except Fault Value :=
  match node with
  | .record fields =>
    match Fields.get? name fields with
    | some v => .ok v
    | none => .error .violation
  | _ => .error .wrongType

end Node

end Stepwise
