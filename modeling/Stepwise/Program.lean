import Stepwise.Eval.Early
import Stepwise.Eval.Returning
import Stepwise.Tree.Outline
import Stepwise.Tree.Parse

/-!
# Programs

A program text from its characters to its effect: tokens, tree, evaluation.

`evaluate` runs a tree at any stage. A program need not end, so the evaluator has
a budget: one unit for each part inside a part and each round of a loop. Running
out of it is a fault of its own (`Fault.exhausted`).

The budget is the only bound. Neither reading nor running limits how deep
expressions and statements are nested or how deep calls go; the limit that a
machine's call stack sets to both is left out.
-/

namespace Stepwise

/-- One step of a stage's evaluator; `part` evaluates the parts of the node. -/
def evalStep (st : Stage) (budget : Nat) (part : Evaluator) : Evaluator :=
  match st with
  | .expressions | .assignments | .booleans | .conditions => Plain.step st part
  | .blocks | .scopes | .functions => Structured.step st part budget
  | .returns => fun _ => Returning.step part budget

/-- Evaluates a tree within a budget. -/
def evaluate (st : Stage) : Nat → Evaluator
  | 0 => fun _ _ => throw .exhausted
  | budget + 1 => evalStep st budget (evaluate st budget)

namespace Program

/-- The budget of programs that are run for their effect. -/
def budget : Nat := 1000000000

/-- The tree of a program text. -/
def tree (st : Stage) (code : String) : Except Fault Tree := do
  parse st (← tokenize st code)

/-- Runs a program text. -/
def run (st : Stage) (code : String) : Action Completion := do
  evaluate st budget .statement (← tree st code)

/-- The outline of a program text. -/
def outline (st : Stage) (code : String) : Except Fault String := do
  Tree.outline st (← tree st code) 0

/--
Runs program texts one after the other. The environment that one leaves is the
next one's, also after a fault; the printed text is kept apart.
-/
def session (st : Stage) (env : Value) : List String → List (Except Fault Completion × Machine)
  | [] => []
  | code :: rest =>
    let answer := (run st code).run env
    answer :: session st answer.2.environment rest

end Program

end Stepwise
