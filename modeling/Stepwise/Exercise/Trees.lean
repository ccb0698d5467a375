import Stepwise.Exercise.Basic

/-!
# Exercises on trees

Programs and the trees that they are read as, and outlines, from `expressions` to
`scopes`.
-/

namespace Stepwise.Exercise.Trees

variable (st : Stage)

/-- A number. -/
def num (n : Int) : Tree := Tree.leaf st st.numberTag (.int n)

/-- A name. -/
def var (name : String) : Tree := Tree.leaf st st.nameTag (.text name)

/-- An operator between two trees. -/
def bin (op : String) (left right : Tree) : Tree := Tree.binary st op left right

/-- An assignment. -/
def set (name : String) (value : Tree) : Tree := Tree.assign st (var st name) value

/-- The program is read as this tree. -/
def treeIs (code : String) (expected : Tree) : Action Unit := do
  expect ((← Program.tree st code).equal expected)

/-- The program has this outline. -/
def outlineIs (code expected : String) : Action Unit := do
  expect ((← Program.outline st code) == expected)

/-- A sum of numbers. -/
def simpleAddition : Action Unit :=
  treeIs st "1+2" (bin st "+" (num st 1) (num st 2))

/-- A sum of names. -/
def simpleNames : Action Unit :=
  treeIs st "x+y" (bin st "+" (var st "x") (var st "y"))

/-- Parentheses group. -/
def nested : Action Unit :=
  treeIs st "(1+2)*3" (bin st "*" (bin st "+" (num st 1) (num st 2)) (num st 3))

/-- Division binds tighter than subtraction. -/
def precedence : Action Unit :=
  treeIs st "4-2/1" (bin st "-" (num st 4) (bin st "/" (num st 2) (num st 1)))

/-- An assignment of a sum. -/
def assignment : Action Unit :=
  treeIs st "x=5+3" (set st "x" (bin st "+" (num st 5) (num st 3)))

/-- The outline of a tree that is given, at the first stage. -/
def firstOutline : Action Unit := do
  let tree := bin st "-" (num st 4) (bin st "/" (num st 2) (num st 1))
  expect ((← Tree.outline st tree 0) == "-\n    4\n    /\n        2\n        1")

/-- Outlines of programs; at the stage of `assignments` the last one is shown too. -/
def outlines : Action Unit := do
  outlineIs st "4-(2/1)" "-\n    4\n    /\n        2\n        1"
  outlineIs st "4-(x/y)" "-\n    4\n    /\n        x\n        y"
  let last ← Program.outline st "z=4-(x/y)"
  if st = .assignments then Action.printLine (← (Value.list [.text last]).print)
  expect (last == "=\n    z\n    -\n        4\n        /\n            x\n            y")

/-- The two truth values. -/
def booleans : Action Unit := do
  treeIs st "true" (Tree.leaf st st.booleanTag (.int 1))
  treeIs st "false" (Tree.leaf st st.booleanTag (.int 0))

/-- Logical operators and how they group. -/
def logicalOperators : Action Unit := do
  forEach ["==", "!=", "||", "&&"] fun op =>
    treeIs st ("1" ++ op ++ "0") (bin st op (num st 1) (num st 0))
  treeIs st "1 || 0 && 1" (bin st "||" (num st 1) (bin st "&&" (num st 0) (num st 1)))
  treeIs st "1 && 0 || 1" (bin st "||" (bin st "&&" (num st 1) (num st 0)) (num st 1))
  treeIs st "1 || 0 || 0" (bin st "||" (bin st "||" (num st 1) (num st 0)) (num st 0))
  treeIs st "1 && 0 && 0" (bin st "&&" (bin st "&&" (num st 1) (num st 0)) (num st 0))

/-- Comparisons of a sum and a product. -/
def relationalOperators : Action Unit :=
  forEach ["<", ">", "<=", ">="] fun op =>
    treeIs st ("1+2" ++ op ++ "3*4")
      (bin st op (bin st "+" (num st 1) (num st 2)) (bin st "*" (num st 3) (num st 4)))

/-- Minus and negation, also before parentheses. -/
def unaryOperators : Action Unit := do
  let sum := bin st "+" (bin st "+" (num st 3) (num st 4)) (var st "x")
  treeIs st "-1" (Tree.unary st "negate" (num st 1))
  treeIs st "!1" (Tree.unary st "not" (num st 1))
  treeIs st "-(3+4+x)" (Tree.unary st "negate" sum)
  treeIs st "!(3+4+x)" (Tree.unary st "not" sum)

/-- An `if`, from `blocks` on also with a block and with an `else`. -/
def ifStatements : Action Unit := do
  let one := set st "x" (num st 1)
  treeIs st "if(1)x=1" (Tree.branch st (num st 1) one none)
  if st.has .blocks then
    treeIs st ("if(1)" ++ braced "x=1") (Tree.branch st (num st 1) (Tree.block [one]) none)
    treeIs st ("if(1)" ++ braced "x=1" ++ "else" ++ braced "x=3")
      (Tree.branch st (num st 1) (Tree.block [one]) (some (Tree.block [set st "x" (num st 3)])))

/-- A `while`. -/
def whileStatements : Action Unit :=
  treeIs st "while(1)x=1" (Tree.loop st (num st 1) (set st "x" (num st 1)))

/-- Blocks with semicolons in all places. -/
def blocks : Action Unit := do
  let x := set st "x" (num st 1)
  let y := set st "y" (num st 2)
  let z := set st "z" (num st 3)
  forEach ["x=1", "x=1;", "x=1;;", ";;x=1;;"] fun code =>
    treeIs st (braced code) (Tree.block [x])
  forEach ["x=1;y=2", "x=1;y=2;", "x=1;;y=2;", ";x=1;;y=2;"] fun code =>
    treeIs st (braced code) (Tree.block [x, y])
  forEach ["x=1;y=2;z=3", "x=1;y=2;z=3;"] fun code =>
    treeIs st (braced code) (Tree.block [x, y, z])

/-- The exercise on outlines, which is not part of the run from `assignments` on. -/
def outlineExercise : Exercise :=
  announced "format ast" "test format AST..."
    (if st.has .assignments then outlines st else firstOutline st)

/-- The exercises in the order in which they are run. -/
def all : List Exercise :=
  let addition := announced "simple addition parsing" "test simple addition parsing..."
    (simpleAddition st)
  let names := announced "simple identifier parsing" "test simple identifier parsing..."
    (simpleNames st)
  let nested := announced "nested expressions parsing" "test nested expressions parsing..."
    (nested st)
  let precedence := announced "operator precedence parsing" "test operator precedence parsing..."
    (precedence st)
  let assignment := announced "assignment parsing" "test assignment parsing..." (assignment st)
  if !st.has .assignments then
    [addition, nested,
     announced "operation precedence parsing" "test operation precedence parsing..."
       (Trees.precedence st),
     outlineExercise st]
  else if !st.has .booleans then [addition, names, nested, precedence, assignment]
  else
    [addition, names,
     announced "unary operators parsing" "test unary operators parsing" (unaryOperators st),
     announced "logical operators parsing" "test logical operators parsing" (logicalOperators st),
     announced "relational operators parsing" "test relational operators parsing"
       (relationalOperators st),
     nested, precedence, assignment,
     announced "boolean parsing" "test boolean parsing..." (booleans st)] ++
    (if st.has .conditions then
      [announced "if statement" "test if statement..." (ifStatements st),
       announced "while statement" "test while statement..." (whileStatements st)]
     else []) ++
    (if st.has .blocks then [announced "block statement" "test block statement..." (blocks st)]
     else [])

end Stepwise.Exercise.Trees
