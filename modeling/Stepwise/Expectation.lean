import Stepwise.Program

/-!
# Expectations

An expectation is a program text with the result, and possibly the environment,
that it should lead to. Checking it runs the program; a difference is a fault
whose report shows what was run, expected and found. An empty expected
environment is not compared.
-/

namespace Stepwise

/-- A program, where it starts, and what it should lead to. -/
structure Expectation where
  code : String
  environment : Value
  result : Value
  /-- The environment afterwards; not compared if there is nothing in it. -/
  afterwards : Value

namespace Expectation

/-- What was run, expected and found, each between brackets. -/
structure Difference where
  code : String
  expected : String
  found : String

/-- A value between brackets. -/
def bracketed (v : Value) : Except Fault String :=
  return "[" ++ (← v.printItem) ++ "]"

/-- The difference between two values. -/
def difference (code : String) (expected found : Value) : Except Fault Difference :=
  return ⟨← bracketed (.text code), ← bracketed expected, ← bracketed found⟩

/-- The report in one line. -/
def Difference.line (d : Difference) : String :=
  "ERROR: When executing " ++ d.code ++ ", expected " ++ d.expected ++ ", got " ++ d.found ++ "."

/-- The report on a result: one line, or several from `functions` on. -/
def Difference.ofResult (st : Stage) (d : Difference) : String :=
  if st.has .functions then
    "ERROR: When executing-- \n    " ++ d.code ++ ",\n    --expected--\n    " ++ d.expected ++
      ",\n    --got--\n    " ++ d.found ++ "."
  else d.line

/-- The report on an environment: one line, or several from `functions` on. -/
def Difference.ofEnvironment (st : Stage) (d : Difference) : String :=
  if st.has .functions then
    "\n        ERROR: When executing \n        " ++ d.code ++ ", \n        expected\n        " ++
      d.expected ++ ",\n got \n" ++ d.found ++ ".\n        "
  else d.line

/-- Runs the program in the expectation's own environment and compares. -/
def check (st : Stage) (e : Expectation) : Action Unit :=
  Action.inFrame e.environment do
    let result := (← Program.run st e.code).value
    if !result.equal e.result then
      throw (.mismatch ((← difference e.code e.result result).ofResult st))
    if e.afterwards.truthy then
      let env ← Action.environment
      if !env.equal e.afterwards then
        throw (.mismatch ((← difference e.code e.afterwards env).ofEnvironment st))

end Expectation

end Stepwise
