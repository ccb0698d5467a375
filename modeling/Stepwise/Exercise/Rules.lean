import Stepwise.Exercise.Trees
import Stepwise.Tree.Grammar

/-!
# Exercises on grammar rules

From `functions` on every rule of the grammar has an exercise of its own, which
names the rule it is about.
-/

namespace Stepwise.Exercise.Rules

open Trees (num var bin set)

variable (st : Stage)

/-- The tokens of a text and the ending. -/
def tokens (code : String) : Except Fault (List Token) :=
  return (← tokenize st code) ++ [Token.ending]

/-- The tree that a rule reads at the head of a text. -/
def readBy (rule : Rule) (code : String) : Except Fault Tree :=
  return (← rule.read st (← tokens st code)).1

/-- The rule reads the text as this tree. -/
def reads (rule : Rule) (code : String) (expected : Tree) : Action Unit := do
  expect ((← readBy st rule code).equal expected)

/-- The two rules read the text as the same tree. -/
def agree (first second : Rule) (code : String) : Action Unit := do
  expect ((← readBy st first code).equal (← readBy st second code))

/-- The rule reads the text, without the ending behind it, as this tree. -/
def readsAlone (rule : Rule) (code : String) (expected : Tree) : Action Unit := do
  expect ((← rule.read st (← tokenize st code)).1.equal expected)

/-- Literals and names. -/
def literals (rule : Rule) : Action Unit := do
  reads st rule "1" (num st 1)
  reads st rule "1.2" (Tree.leaf st st.numberTag (.float (Number.read "1.2")))
  reads st rule "true" (Tree.leaf st st.booleanTag (.int 1))
  reads st rule "false" (Tree.leaf st st.booleanTag (.int 0))
  reads st rule "x" (var st "x")

/-- A minus before a number. -/
def minus (rule : Rule) : Action Unit :=
  reads st rule "-1" (Tree.unary st "negate" (num st 1))

/-- Calls of a name. -/
def nameCalls (rule : Rule) : Action Unit := do
  reads st rule "x()" (Tree.call st (var st "x") .null)
  reads st rule "x(1)" (Tree.call st (var st "x") (num st 1))
  reads st rule "x(1,2+3)"
    (Tree.call st (var st "x") (Tree.chain [num st 1, bin st "+" (num st 2) (num st 3)]))

/-- Texts that need no call suffix. -/
def plainFactors : List String := ["1", "1.2", "true", "x", "-1"]

/-- The rule of simple expressions. -/
def simple : Action Unit := do
  literals st .simple
  minus st .simple

/-- The rule of calls. -/
def callable : Action Unit := do
  forEach plainFactors (agree st .callable .simple)
  nameCalls st .callable
  reads st .callable "x()(1,2)"
    (Tree.call st (Tree.call st (var st "x") .null) (Tree.chain [num st 1, num st 2]))

/-- The rule of factors. -/
def factor : Action Unit :=
  if st.has .returns then forEach plainFactors (agree st .factor .callable)
  else do
    literals st .factor
    nameCalls st .factor
    minus st .factor

/-- The rule of products. -/
def product : Action Unit := do
  let xy := bin st "*" (var st "x") (var st "y")
  reads st .product "x" (var st "x")
  reads st .product "x*y" xy
  reads st .product "x/y" (bin st "/" (var st "x") (var st "y"))
  reads st .product "x*y/z" (bin st "/" xy (var st "z"))

/-- The rule of sums. -/
def sum : Action Unit := do
  let xy := bin st "+" (var st "x") (var st "y")
  reads st .sum "x" (var st "x")
  reads st .sum "x*y" (bin st "*" (var st "x") (var st "y"))
  reads st .sum "x+y" xy
  reads st .sum "x-y" (bin st "-" (var st "x") (var st "y"))
  reads st .sum "x+y-z" (bin st "-" xy (var st "z"))
  reads st .sum "x+y*z" (bin st "+" (var st "x") (bin st "*" (var st "y") (var st "z")))
  reads st .sum "(x+y)*z" (bin st "*" xy (var st "z"))

/-- The rule of comparisons. -/
def comparison : Action Unit := do
  reads st .comparison "x" (var st "x")
  forEach ["<", ">", "<=", ">=", "==", "!="] fun op =>
    reads st .comparison ("x" ++ op ++ "y") (bin st op (var st "x") (var st "y"))
  reads st .comparison "x<y>z" (bin st ">" (bin st "<" (var st "x") (var st "y")) (var st "z"))

/-- The rule of negations. -/
def negation : Action Unit := do
  reads st .negation "x" (var st "x")
  reads st .negation "!x" (Tree.unary st "not" (var st "x"))

/-- The rule of conjunctions. -/
def conjunction : Action Unit := do
  let xy := bin st "&&" (var st "x") (var st "y")
  reads st .conjunction "x" (var st "x")
  reads st .conjunction "x&&y" xy
  reads st .conjunction "x&&y&&z" (bin st "&&" xy (var st "z"))

/-- The rule of disjunctions. -/
def disjunction : Action Unit := do
  reads st .disjunction "x" (var st "x")
  reads st .disjunction "x||y" (bin st "||" (var st "x") (var st "y"))
  reads st .disjunction "x||y&&z"
    (bin st "||" (var st "x") (bin st "&&" (var st "y") (var st "z")))

/-- The rule of functions. -/
def functionLiteral : Action Unit := do
  reads st .functionLiteral ("function() " ++ braced "return 1")
    (Tree.function .null (Tree.block [Tree.giveBack (some (num st 1))]))
  reads st .functionLiteral ("function(x,y) " ++ braced "return x*y")
    (Tree.function (Tree.chain [var st "x", var st "y"])
      (Tree.block [Tree.giveBack (some (bin st "*" (var st "x") (var st "y")))]))

/-- The rule of expressions. -/
def expression : Action Unit :=
  forEach ["x", "x+x", "x||y&&z"] (agree st .expression .disjunction)

/-- The rule of parameter lists. -/
def nameList : Action Unit := do
  readsAlone st .nameList "()" .null
  readsAlone st .nameList "(x)" (var st "x")
  readsAlone st .nameList "(x,y,z)" (Tree.chain [var st "x", var st "y", var st "z"])

/-- The rule of argument lists. -/
def expressionList : Action Unit := do
  readsAlone st .expressionList "()" .null
  readsAlone st .expressionList "(1)" (num st 1)
  readsAlone st .expressionList "(1,2,3)" (Tree.chain [num st 1, num st 2, num st 3])

/-- The rule of assignments. -/
def assignment : Action Unit :=
  reads st .assignment "x=5+3" (set st "x" (bin st "+" (num st 5) (num st 3)))

/-- The rule of blocks. -/
def blockStatement : Action Unit := do
  let x := set st "x" (num st 1)
  let y := set st "y" (num st 2)
  forEach ["x=1", "x=1;", "x=1;;", ";;x=1;;"] fun code =>
    reads st .blockStatement (braced code) (Tree.block [x])
  forEach ["x=1;y=2", "x=1;y=2;", "x=1;;y=2;", ";x=1;;y=2;"] fun code =>
    reads st .blockStatement (braced code) (Tree.block [x, y])
  reads st .blockStatement (braced "x=1;y=2;z=3") (Tree.block [x, y, set st "z" (num st 3)])
  reads st .blockStatement (braced "return 1")
    (Tree.block [Tree.giveBack (some (num st 1))])

/-- The rule of `if`. -/
def ifStatement : Action Unit := do
  let one := set st "x" (num st 1)
  reads st .ifStatement "if(1)x=1" (Tree.branch st (num st 1) one none)
  reads st .ifStatement ("if(1)" ++ braced "x=1")
    (Tree.branch st (num st 1) (Tree.block [one]) none)
  reads st .ifStatement ("if(1)" ++ braced "x=1" ++ "else" ++ braced "x=3")
    (Tree.branch st (num st 1) (Tree.block [one]) (some (Tree.block [set st "x" (num st 3)])))

/-- The rule of `while`. -/
def whileStatement : Action Unit :=
  reads st .whileStatement "while(1)x=1" (Tree.loop st (num st 1) (set st "x" (num st 1)))

/-- The rule of `return`. -/
def returnStatement : Action Unit := do
  reads st .returnStatement "return" (Tree.giveBack none)
  reads st .returnStatement "return\x7d12" (Tree.giveBack none)
  reads st .returnStatement "return;34" (Tree.giveBack none)
  reads st .returnStatement "return 5" (Tree.giveBack (some (num st 5)))
  reads st .returnStatement "return (5)" (Tree.giveBack (some (num st 5)))

/-- The rule of `print`. -/
def printStatement : Action Unit := do
  reads st .printStatement "print()" (Tree.output .null)
  reads st .printStatement "print(1)" (Tree.output (num st 1))
  reads st .printStatement "print(1,2+3)"
    (Tree.output (Tree.chain [num st 1, bin st "+" (num st 2) (num st 3)]))

/-- The rule of function statements, beside the assignment that it stands for. -/
def functionStatement : Action Unit := do
  let _ ← readBy st .assignment ("sq = function(x) " ++ braced "return x*x;")
  let _ ← readBy st .functionStatement ("function sq(x) " ++ braced "return x*x;")

/-- The rule of statements, beside the rule of each kind. -/
def statement : Action Unit := do
  agree st .statement .blockStatement (braced "x=4;y=5;")
  agree st .statement .ifStatement ("if(1)" ++ braced "x=3")
  agree st .statement .whileStatement ("while(1)" ++ braced "x=3")
  agree st .statement .functionStatement ("function sq(x) " ++ braced "return x")
  agree st .statement .expression ("function(x) " ++ braced "return x")
  agree st .statement .returnStatement "return 22;"
  agree st .statement .printStatement "print(1,2,3);"
  agree st .statement .assignment "x=5+3"
  agree st .statement .expression "5+3"

/-- Whole programs. -/
def program : Action Unit := do
  expect ((← Program.tree st "1 || 0 && 1").equal (← readBy st .statement "1 || 0 && 1"))

/-- Outlines of programs. -/
def outlines : Action Unit := do
  Trees.outlineIs st "4-(2/1)" "-\n    4\n    /\n        2\n        1"
  Trees.outlineIs st "4-(x/y)" "-\n    4\n    /\n        x\n        y"
  Trees.outlineIs st "z=4-(x/y)"
    "=\n    z\n    -\n        4\n        /\n            x\n            y"

/-- The exercise on outlines. -/
def outlineExercise : Exercise := ⟨"format", outlines st⟩

/-- The exercises, each with the rule it is about, in the order in which they are run. -/
def all : List (String × Exercise) :=
  let titles :=
    (if st.has .returns then
      [("parse simple expression", simple st), ("parse callable expression", callable st)]
     else []) ++
    [("parse arithmetic factor", factor st),
     ("parse arithmetic term", product st),
     ("parse arithmetic expression", sum st),
     ("parse relational expression", comparison st),
     ("parse logical factor", negation st),
     ("parse logical term", conjunction st),
     ("parse logical expression", disjunction st),
     ("parse function expression", functionLiteral st),
     ("parse expression", expression st),
     ("parse identifier list", nameList st),
     ("parse expression list", expressionList st),
     ("parse assignment", assignment st),
     ("parse block statement", blockStatement st),
     ("parse if statement", ifStatement st),
     ("parse while statement", whileStatement st),
     ("parse return statement", returnStatement st),
     ("parse print statement", printStatement st),
     ("parse function statement", functionStatement st),
     ("parse statement", statement st),
     ("parse", program st)]
  (Grammar.rules st).zip (titles.map fun (title, body) => ⟨title, body⟩)

/-- Runs the exercises and crosses their rules off; rules that remain are shown. -/
def runAll : List String → List (String × Exercise) → Action Unit
  | untested, [] => do
    if !untested.isEmpty then
      Action.printLine ("Untested grammar = [[[ " ++ "\n".intercalate untested ++ " ]]]")
  | untested, (rule, exercise) :: rest => do
    Action.printLine ("testing " ++ Grammar.ruleName rule)
    expect (untested.contains rule)
    exercise.run
    runAll (untested.filter (· != rule)) rest

end Stepwise.Exercise.Rules
