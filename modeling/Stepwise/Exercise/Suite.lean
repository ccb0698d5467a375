import Stepwise.Exercise.Results
import Stepwise.Exercise.Rules
import Stepwise.Exercise.Tokens

/-!
# Suites of exercises

The exercises of a stage come in three suites. A suite can be run as a whole, in
order and up to the first fault, or one exercise at a time.
-/

namespace Stepwise

/-- The three suites. -/
inductive Suite where
  | tokens
  | trees
  | results
deriving DecidableEq, Repr

namespace Suite

/-- All suites in order. -/
def all : List Suite := [.tokens, .trees, .results]

/-- All exercises of a suite. -/
def exercises (st : Stage) : Suite → List Exercise
  | .tokens => Exercise.Tokens.all st
  | .trees =>
    if st.has .functions then
      (Exercise.Rules.all st).map (·.2) ++ [Exercise.Rules.outlineExercise st]
    else if st.has .assignments then
      Exercise.Trees.all st ++ [Exercise.Trees.outlineExercise st]
    else Exercise.Trees.all st
  | .results => Exercise.Results.all st

/-- The exercise of a suite with this title. -/
def exercise? (st : Stage) (suite : Suite) (title : String) : Option Exercise :=
  (suite.exercises st).find? (·.title == title)

/-- Runs exercises in order. -/
def runInOrder (exercises : List Exercise) : Action Unit :=
  Exercise.forEach exercises Exercise.run

/-- What a suite prints before its exercises. -/
def banner (st : Stage) : Suite → Option String
  | .tokens => some "testing tokenizer."
  | .trees => none
  | .results => some (if st.has .assignments then "test evaluator..." else "testing evaluator.")

/-- The exercises of a suite as it is run as a whole. -/
def body (st : Stage) : Suite → Action Unit
  | .tokens => runInOrder (Exercise.Tokens.all st)
  | .trees =>
    if st.has .functions then do
      Exercise.Rules.runAll (Grammar.rules st) (Exercise.Rules.all st)
      Action.printLine "testing format(ast)..."
      (Exercise.Rules.outlineExercise st).run
    else runInOrder (Exercise.Trees.all st)
  | .results => runInOrder (Exercise.Results.all st)

/-- Runs a whole suite. -/
def run (st : Stage) (suite : Suite) : Action Unit := do
  match suite.banner st with
  | some line => Action.printLine line
  | none => pure ()
  suite.body st
  Action.printLine "done."

/-- How many exercises of a stage pass. -/
def passed (st : Stage) : Nat :=
  (all.flatMap (exercises st)).countP Exercise.passes

end Suite

end Stepwise
