import Stepwise.Exercise.Trees

/-!
# Exercises on results

Programs and the values and environments that they lead to, at every stage.
-/

namespace Stepwise.Exercise.Results

variable (st : Stage)

/-- An environment that binds names to integers. -/
def binding (pairs : List (String × Int)) : Value :=
  .record (pairs.map fun (name, n) => (name, .int n))

/-- The program leads from the environment to the result. -/
def gives (code : String) (env result : Value) : Action Unit :=
  Expectation.check st ⟨code, env, result, .null⟩

/-- The program, run with nothing bound, has an integer as its value. -/
def valueIs (code : String) (n : Int) : Action Unit :=
  gives st code (.record []) (.int n)

/-- The program leads from one environment to another, with null as its value. -/
def leads (code : String) (before after : List (String × Int)) : Action Unit :=
  Expectation.check st ⟨code, binding before, .null, binding after⟩

/-- The value of a tree that is given. -/
def treeGives (tree : Tree) (n : Int) : Action Unit := do
  expect ((← evaluate st Program.budget .statement tree).value.equal (.int n))

/-- A division by zero is a fault with that wording. -/
def divisionByZero : Action Unit := do
  let fault : Option Fault ← tryCatch
    (do gives st "1/0" (.record []) .null; return none) (fun e => return some e)
  expect ((fault.bind Fault.message?) == some "Division by zero")

/-! ## The first stage -/

/-- A node with just the fields that the evaluator needs. -/
def bare (tag : String) (left right : Tree) : Tree :=
  Tree.node tag [("left", left), ("right", right)]

/-- A number node with just its value. -/
def bareNumber (n : Int) : Tree :=
  Tree.node "number" [("value", .int n)]

/-- Sums, from a tree and from programs. -/
def firstAddition : Action Unit := do
  treeGives st (bare "+" (bareNumber 1) (bareNumber 2)) 3
  valueIs st "1 + 3" 4
  valueIs st "1 + 4" 5

/-- Products of sums, from a tree and from programs. -/
def firstComplex : Action Unit := do
  treeGives st (bare "*" (bare "+" (bareNumber 1) (bareNumber 2)) (bareNumber 3)) 9
  valueIs st "(1+2)*3" 9
  valueIs st "(1+2)*(3+4)" 21

/-- The exercises of the first stage. -/
def first : List Exercise :=
  [announced "evaluate simple addition" "testing simple addition." (firstAddition st),
   announced "evaluate complex expression" "testing complex expression." (firstComplex st),
   announced "evaluate subtraction" "testing subtraction." (valueIs st "11-5" 6),
   announced "evaluate division" "testing division." (valueIs st "15/5" 3),
   announced "evaluate division by zero" "testing division by zero." (divisionByZero st)]

/-! ## Names and operators -/

/-- A number by itself. -/
def singleValue : Action Unit :=
  valueIs st "4" 4

/-- A name, from `scopes` on also one of an enclosing frame. -/
def singleName : Action Unit := do
  Expectation.check st ⟨"x", binding [("x", 3)], .int 3, binding [("x", 3)]⟩
  if st.has .scopes then
    let inner (outer : Value) : Value := .record [("x", .int 3), (Name.parentField, outer)]
    gives st "y" (inner (binding [("y", 4)])) (.int 4)
    gives st "z" (inner (.record [("y", .int 4), (Name.parentField, binding [("z", 5)])])) (.int 5)

/-- Sums. -/
def addition : Action Unit := do
  valueIs st "1 + 3" 4
  valueIs st "1 + 4" 5

/-- Minus and negation. -/
def unary : Action Unit := do
  valueIs st "-5" (-5)
  valueIs st "!0" 1
  valueIs st "!1" 0

/-- Comparisons. -/
def relational : Action Unit := do
  valueIs st "2<3" 1
  valueIs st "4==4" 1
  valueIs st "4==1" 0

/-- Logical operators. -/
def logical : Action Unit :=
  forEach [("1==1", 1), ("1!=1", 0), ("1&&1", 1), ("1&&0", 0), ("0&&0", 0), ("1||1", 1),
      ("1||0", 1), ("0||0", 0), ("!1", 0), ("!0", 1)] fun (code, n) => valueIs st code n

/-! ## Control flow -/

/-- A loop that moves three from one name to the other. -/
def countingLoop : String :=
  "while (x>0) " ++ braced "x=x-1;y=y+1"

/-- Loops that run never and three times. -/
def loops : Action Unit := do
  leads st "while (0) x=4" [("x", 0)] [("x", 0)]
  leads st countingLoop [("x", 3), ("y", 0)] [("x", 0), ("y", 3)]

/-- Blocks. -/
def blocks : Action Unit := do
  leads st (braced "x=4") [] [("x", 4)]
  leads st (braced "x=4; y=3") [] [("x", 4), ("y", 3)]
  leads st (braced "x=4; y=3; y=1") [] [("x", 4), ("y", 1)]
  leads st (braced ("x=3; y=0; " ++ countingLoop)) [] [("x", 0), ("y", 3)]

/-! ## Functions -/

/-- The function that gives back its argument. -/
def identity : Value :=
  Tree.function (Trees.var st "x") (Tree.block [Tree.giveBack (some (Trees.var st "x"))])

/-- A function is its own tree. -/
def functionExpressions : Action Unit := do
  let code := "function(x) " ++ braced "return x"
  gives st code .null (identity st)
  Expectation.check st ⟨"f = " ++ code, .record [], .null, .record [("f", identity st)]⟩

/-- A function statement binds its name. -/
def functionStatements : Action Unit :=
  Expectation.check st
    ⟨"function f(x) " ++ braced "return x", .record [], .null, .record [("f", identity st)]⟩

/-- Printing nothing and several values. -/
def printing : Action Unit :=
  forEach ["print()", "print(1)", "print(1,2)", "print(1,2,3+4)"] fun code =>
    gives st code (.record []) .null

/-- Runs a program in the environment of the exercise. -/
def obey (code : String) : Action Unit := do
  let _ ← Program.run st code

/-- Runs a program in the environment of the exercise; its value is an integer. -/
def answers (code : String) (n : Int) : Action Unit := do
  expect ((← Program.run st code).value.equal (.int n))

/-- Calls of functions that print. -/
def printingCalls : Action Unit :=
  Action.inFrame (.record []) do
    obey st (braced ("f = function() " ++ braced "print(1)" ++ "; f()"))
    obey st (braced ("f = function() " ++ braced "print(1+2*4)" ++ "; f(); f();"))
    obey st (braced ("x=5; f = function() " ++ braced "print(x+x+x*2)" ++ "; f(); f();"))
    obey st (braced ("f = function(x) " ++ braced "print(x*x*x)" ++ "; f(2); f(3); f(4);"))
    obey st (braced ("z=100; f = function(x, y) " ++ braced "q=0.5; x=x*2;print(q*x*y*z)" ++
      "; f(1,2); f(2,3); f(3,4);"))

/-! ## Returning -/

/-- The program, run with nothing bound, returns this value. -/
def returnsValue (code : String) (expected : Value) : Action Unit :=
  Action.inFrame (.record []) do
    let done ← Program.run st code
    expect done.returning
    expect (done.value.equal expected)

/-- `return` alone, and from blocks, branches and loops. -/
def returning : Action Unit := do
  returnsValue st "return" .null
  returnsValue st "return 1" (.int 1)
  returnsValue st (braced "x=2; return x;") (.int 2)
  returnsValue st ("if (1) " ++ braced "x=2; return x;") (.int 2)
  returnsValue st (braced ("x=0; while(x<10) " ++ braced "x=3; return x;")) (.int 3)

/-- Calls of functions that return. -/
def returningCalls : Action Unit :=
  Action.inFrame (.record []) do
    obey st ("f = function() " ++ braced "return")
    expect ((← Program.run st "f()").value.isNull)
    obey st ("f = function(x) " ++ braced "return x")
    answers st "f(1)" 1
    obey st ("f = function(x) " ++ braced "return x + x")
    answers st "f(1)" 2
    obey st ("f = function(x,y) " ++ braced "return x * y")
    answers st "f(1,2)" 2
    answers st "f(2,3)" 6
    obey st ("function g(x,y) " ++ braced "return x * y + 1")
    answers st "g(1,2)" 3
    answers st "g(2,3)" 7
    answers st "f(1,2) + g(1,2)" 5
    answers st "f(2,3) + g(2,3)" 13

/-- A function for the absolute value. -/
def absolute : String :=
  "function abs(x) " ++
    braced ("if (x > 0) " ++ braced " return x; " ++ " else " ++ braced "return -x;")

/-- Square roots by iteration, with a tolerance that the function finds in its caller's frame. -/
def squareRoots : Action Unit :=
  Action.inFrame (.record []) do
    obey st absolute
    answers st "abs(2)" 2
    answers st "abs(-3)" 3
    obey st ("function squareRoot(number) " ++ braced
      ("guess = number / 2; while (abs(guess * guess - number) > tolerance) " ++
        braced "guess = (guess + number / guess) / 2; " ++ "; return guess;"))
    obey st "tolerance = 0.00000001;"
    let root := (← Program.run st "squareRoot(16);").value
    Action.printLine (← (Value.list [root]).print)
    obey st "print(squareRoot(16));"
    obey st "print(squareRoot(9));"
    obey st "print(squareRoot(4));"
    obey st "print(tolerance);"

/-- Calls of what other calls give back, and of a function where it is written. -/
def expressionCalls : Action Unit :=
  Action.inFrame (.record []) do
    obey st absolute
    answers st "abs(-2)" 2
    obey st ("function absf() " ++ braced "return abs")
    obey st "absf"
    obey st "absf()"
    Action.printLine (← (← Program.run st "absf()(-3)").value.print)
    Action.printLine
      (← (← Program.run st ("function(x) " ++ braced "return x*x" ++ " (4)")).value.print)

/-! ## The run -/

/-- An exercise of the later stages, announced by its title. -/
def titled (subject stop : String) (body : Action Unit) : Exercise :=
  announced subject ("test " ++ subject ++ stop) body

/-- Names, arithmetic and assignment. -/
def basics : List Exercise :=
  [titled "evaluate single value" "" (singleValue st),
   titled "evaluate single identifier" "" (singleName st),
   titled "evaluate simple addition" "" (addition st),
   titled "evaluate simple assignment" "" (leads st "x=3" [] [("x", 3)]),
   titled "evaluate complex expression" "" (valueIs st "(1+2)*(3+4)" 21),
   titled "evaluate subtraction" "." (valueIs st "11-5" 6),
   titled "evaluate division" "." (valueIs st "15/5" 3),
   titled "evaluate division by zero" "." (divisionByZero st)]

/-- Unary, relational and logical operators. -/
def operators : List Exercise :=
  let about (subject : String) := if st.has .blocks then "evaluate " ++ subject else subject
  [titled (about "unary operators") "." (unary st),
   titled (about "relational operators") "." (relational st),
   titled (about "logical operators") "." (logical st)]

/-- Branches, loops and blocks. -/
def controlFlow : List Exercise :=
  [titled "evaluate if statement" "." (leads st "if (1) x=4" [("x", 0)] [("x", 4)]),
   titled "evaluate while statement" "." (loops st),
   titled "evaluate block statement" "." (blocks st)]

/-- Functions and printing. -/
def functions : List Exercise :=
  [announced "evaluate function expression" "test evaluate function_expression."
     (functionExpressions st),
   announced "evaluate function statement" "test evaluate function_statement."
     (functionStatements st),
   announced "evaluate print statement" "test evaluate print_statement." (printing st)]

/-- Calls, and from `returns` on returning. -/
def calls : List Exercise :=
  if st.has .returns then
    [titled "evaluate return statement" "." (returning st),
     titled "evaluate function call" "." (returningCalls st),
     titled "evaluate square root function" "." (squareRoots st),
     announced "evaluate expression function call" "test evaluate expression_function_call."
       (expressionCalls st)]
  else [titled "evaluate function call" "." (printingCalls st)]

/-- The exercises in the order in which they are run. -/
def all : List Exercise :=
  if !st.has .assignments then first st
  else
    basics st ++
    (if st.has .booleans then operators st else []) ++
    (if st.has .blocks then controlFlow st else []) ++
    (if st.has .functions then functions st ++ calls st else [])

end Stepwise.Exercise.Results
