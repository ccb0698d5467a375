import Stepwise.Token.Basic
import Stepwise.Tree.Basic

/-!
# Parsing

A recursive-descent parser. `Rule` names the rules of the grammar of all stages;
a rule applied to a list of tokens gives a tree and the tokens behind it.

- `Rule.step` is one application of a rule, with the rules it uses given;
- `Rule.apply` ties the knot with a budget, one unit for each use of a rule
  inside another;
- `Rule.read` fixes the budget by the number of tokens: a token is consumed at
  the latest after as many nested uses as there are rules, so it never runs out.
- `parse` reads a program: a statement. What stands behind it is ignored.
-/

namespace Stepwise

/-- The rules of the grammar. -/
inductive Rule where
  | statement
  | ifStatement
  | whileStatement
  | blockStatement
  | returnStatement
  | printStatement
  | functionStatement
  | assignment
  | expression
  | disjunction
  | conjunction
  | negation
  | comparison
  | sum
  | product
  | factor
  | callable
  | simple
  | functionLiteral
  | nameList
  | expressionList
deriving DecidableEq, Repr

/-- What a rule gives: a tree and the tokens behind it. -/
abbrev Reading := Except Fault (Tree × List Token)

namespace Rule

open Token (headTag)

/-- The first token has this tag. -/
def nextIs (tag : String) (ts : List Token) : Except Fault Bool :=
  return (← headTag ts).isText tag

/-- The tokens behind the first one, which has to have this tag. -/
def skip (tag : String) (ts : List Token) : Except Fault (List Token) := do
  if ← nextIs tag ts then return ts.drop 1 else throw .violation

/-- As `skip`, but says what was expected and what stands there. -/
def demand (tag what : String) (ts : List Token) : Except Fault (List Token) := do
  if ← nextIs tag ts then return ts.drop 1 else throw (.expected what (ts.headD .null))

/-- The field `value` of the first token. -/
def headValue (ts : List Token) : Except Fault Value :=
  match ts with
  | [] => .error .outOfTokens
  | t :: _ => t.field "value"

/-- The tokens behind any semicolons at the head. -/
def skipSemicolons : List Token → Except Fault (List Token)
  | [] => .error .outOfTokens
  | t :: rest => do
    if (← t.field "tag").isText ";" then skipSemicolons rest else return t :: rest

/-! ## Repetition -/

variable (st : Stage) (rule : Rule → List Token → Reading)

/-- Operators of one level between operands, grouped from the left. -/
def leftward (operand : Rule) (operators : List String) :
    Nat → Tree → List Token → Reading
  | 0, _, _ => .error .exhausted
  | budget + 1, left, ts => do
    match ← headTag ts with
    | .text tag =>
      if operators.contains tag then
        let (right, rest) ← rule operand (ts.drop 1)
        leftward operand operators budget (Tree.binary st tag left right) rest
      else return (left, ts)
    | _ => return (left, ts)

/-- Argument lists behind something that can be called. -/
def calls : Nat → Tree → List Token → Reading
  | 0, _, _ => .error .exhausted
  | budget + 1, callee, ts => do
    if ← nextIs "(" ts then
      let (arguments, rest) ← rule .expressionList ts
      calls budget (Tree.call st callee arguments) rest
    else return (callee, ts)

/-- The further statements of a block, each behind one semicolon at least. -/
def moreStatements : Nat → List Token → Except Fault (List Tree × List Token)
  | 0, _ => .error .exhausted
  | budget + 1, ts => do
    if ← nextIs ";" ts then
      let ts ← skipSemicolons ts
      if ← nextIs "\x7d" ts then moreStatements budget ts
      else
        let (s, ts) ← rule .statement ts
        if !(← nextIs ";" ts) && !(← nextIs "\x7d" ts) then throw .violation
        let (more, ts) ← moreStatements budget ts
        return (s :: more, ts)
    else return ([], ts)

/-- The further expressions of a list, each behind a comma. -/
def moreExpressions : Nat → List Token → Except Fault (List Tree × List Token)
  | 0, _ => .error .exhausted
  | budget + 1, ts => do
    if ← nextIs "," ts then
      let (e, ts) ← rule .expression (ts.drop 1)
      let (more, ts) ← moreExpressions budget ts
      return (e :: more, ts)
    else return ([], ts)

/-- A name in a list of parameters. -/
def parameter (ts : List Token) : Reading := do
  if ← nextIs st.nameTag ts then
    return (Tree.leaf st st.nameTag (← headValue ts), ts.drop 1)
  else throw .violation

/-- The further names of a list, each behind a comma. -/
def moreParameters : Nat → List Token → Except Fault (List Tree × List Token)
  | 0, _ => .error .exhausted
  | budget + 1, ts => do
    if ← nextIs "," ts then
      let (p, ts) ← parameter st (ts.drop 1)
      let (more, ts) ← moreParameters budget ts
      return (p :: more, ts)
    else return ([], ts)

/-! ## The rules -/

/-- A leaf of the first token. -/
def readLeaf (tag : String) (ts : List Token) : Reading :=
  return (Tree.leaf st tag (← headValue ts), ts.drop 1)

/-- An expression in parentheses. Up to `functions` it has to be a comparison. -/
def parenthesized (ts : List Token) : Reading := do
  let inner := if st.has .booleans && !st.has .returns then comparison else expression
  let (e, rest) ← rule inner (ts.drop 1)
  if ← nextIs ")" rest then return (e, rest.drop 1) else throw .unclosed

/-- A minus before an operand. -/
def negated (operand : Rule) (ts : List Token) : Reading := do
  let (e, rest) ← rule operand (ts.drop 1)
  return (Tree.unary st "negate" e, rest)

/-- A number, truth value, name or function, or an expression in parentheses or behind a minus. -/
def readSimple (operand : Rule) (ts : List Token) : Reading := do
  let tag ← headTag ts
  if tag.isText st.numberTag then readLeaf st st.numberTag ts
  else if tag.isText st.booleanTag && st.has .booleans then readLeaf st st.booleanTag ts
  else if tag.isText st.nameTag && st.has .assignments then readLeaf st st.nameTag ts
  else if tag.isText "(" then parenthesized st rule ts
  else if tag.isText "-" && st.has .booleans then negated st rule operand ts
  else if tag.isText "function" && st.has .functions then rule .functionLiteral ts
  else throw (.unexpected (ts.headD .null))

/-- A name with at most one list of arguments behind it, at the stage of `functions`. -/
def readNameOrCall (ts : List Token) : Reading := do
  let (callee, rest) ← readLeaf st st.nameTag ts
  if ← nextIs "(" rest then
    let (arguments, rest) ← rule .expressionList rest
    return (Tree.call st callee arguments, rest)
  else return (callee, rest)

/-- A factor: from `returns` on anything that can be called. -/
def readFactor (ts : List Token) : Reading :=
  match st with
  | .returns => rule .callable ts
  | .functions => do
    if ← nextIs st.nameTag ts then readNameOrCall st rule ts else readSimple st rule .factor ts
  | _ => readSimple st rule .factor ts

/-- A `!` before a negation, or a comparison. -/
def readNegation (ts : List Token) : Reading := do
  if ← nextIs "!" ts then
    let (e, rest) ← rule .negation (ts.drop 1)
    return (Tree.unary st "not" e, rest)
  else rule .comparison ts

/-- `name = expression`. -/
def readAssignment (ts : List Token) : Reading := do
  if !(← nextIs st.nameTag ts) then throw (.expected "identifier" (ts.headD .null))
  let target := Tree.leaf st st.nameTag (← headValue ts)
  let rest ← demand "=" "'='" (ts.drop 1)
  let (value, rest) ← rule .expression rest
  return (Tree.assign st target value, rest)

/-- A condition in parentheses; `closing` is what a missing one is reported as. -/
def readCondition (closing : String) (ts : List Token) : Reading := do
  let rest ← demand "(" "'('" ts
  let (condition, rest) ← rule .expression rest
  return (condition, ← demand ")" closing rest)

/-- `if (condition) statement`, from `blocks` on with an optional `else`. -/
def readIf (ts : List Token) : Reading := do
  let closing := if st.has .functions then "')'" else "'('"
  let (condition, rest) ← readCondition rule closing (← skip "if" ts)
  let (consequence, rest) ← rule .statement rest
  if st.has .blocks then
    if ← nextIs "else" rest then
      let (alternative, rest) ← rule .statement (rest.drop 1)
      return (Tree.branch st condition consequence (some alternative), rest)
    else return (Tree.branch st condition consequence none, rest)
  else return (Tree.branch st condition consequence none, rest)

/-- `while (condition) statement`. -/
def readWhile (ts : List Token) : Reading := do
  let (condition, rest) ← readCondition rule "'('" (← skip "while" ts)
  let (body, rest) ← rule .statement rest
  return (Tree.loop st condition body, rest)

/-- Statements between braces, with semicolons between them and anywhere around. -/
def readBlock (budget : Nat) (ts : List Token) : Reading := do
  let ts ← skipSemicolons (← skip "\x7b" ts)
  if ← nextIs "\x7d" ts then return (Tree.block [], ts.drop 1)
  else
    let (s, ts) ← rule .statement ts
    let (more, ts) ← moreStatements rule budget ts
    return (Tree.block (s :: more), ← skip "\x7d" ts)

/-- `return`, without a value before `;`, a closing brace and the end. -/
def readReturn (ts : List Token) : Reading := do
  let rest ← skip "return" ts
  let tag ← headTag rest
  if tag.isText "\x7d" || tag.isText ";" || tag.isNull then return (Tree.giveBack none, rest)
  else
    let (value, rest) ← rule .expression rest
    return (Tree.giveBack (some value), rest)

/-- `print` and a list of expressions. -/
def readPrint (ts : List Token) : Reading := do
  let (arguments, rest) ← rule .expressionList (← skip "print" ts)
  return (Tree.output arguments, rest)

/-- `function name …` reads as the assignment `name = function …`. -/
def readFunctionStatement (ts : List Token) : Reading := do
  let _ ← skip "function" ts
  let _ ← skip st.nameTag (ts.drop 1)
  match ts with
  | keyword :: name :: rest =>
    let sign : Token := .record [("tag", .text "="), ("position", ← keyword.field "position")]
    rule .assignment (name :: sign :: keyword :: rest)
  | _ => throw .outOfTokens

/-- `function`, a list of names and a block. -/
def readFunction (ts : List Token) : Reading := do
  let (parameters, rest) ← rule .nameList (← skip "function" ts)
  let (body, rest) ← rule .blockStatement rest
  return (Tree.function parameters body, rest)

/-- Names between parentheses, as a chain. -/
def readNameList (budget : Nat) (ts : List Token) : Reading := do
  let ts ← skip "(" ts
  if ← nextIs ")" ts then return (Tree.chain [], ts.drop 1)
  else
    let (p, ts) ← parameter st ts
    let (more, ts) ← moreParameters st budget ts
    return (Tree.chain (p :: more), ← skip ")" ts)

/-- Expressions between parentheses, as a chain. -/
def readExpressionList (budget : Nat) (ts : List Token) : Reading := do
  let ts ← skip "(" ts
  if ← nextIs ")" ts then return (Tree.chain [], ts.drop 1)
  else
    let (e, ts) ← rule .expression ts
    let (more, ts) ← moreExpressions rule budget ts
    return (Tree.chain (e :: more), ← skip ")" ts)

/-- The statement that the first token, or the first two, announce; else an expression. -/
def readStatement (ts : List Token) : Reading := do
  let tag ← headTag ts
  if tag.isText "if" && st.has .conditions then rule .ifStatement ts
  else if tag.isText "while" && st.has .conditions then rule .whileStatement ts
  else if tag.isText "function" && st.has .functions then
    if ← nextIs st.nameTag (ts.drop 1) then rule .functionStatement ts else rule .expression ts
  else if tag.isText "return" && st.has .functions then rule .returnStatement ts
  else if tag.isText "print" && st.has .functions then rule .printStatement ts
  else if tag.isText "\x7b" && st.has .blocks then rule .blockStatement ts
  else if tag.isText st.nameTag && st.has .assignments then
    if ← nextIs "=" (ts.drop 1) then rule .assignment ts else rule .expression ts
  else rule .expression ts

/-- Operands of one rule with operators between them. -/
def readLeftward (budget : Nat) (operand : Rule) (operators : List String) (ts : List Token) :
    Reading := do
  let (left, rest) ← rule operand ts
  leftward st rule operand operators budget left rest

/-- One application of a rule; `rule` applies the rules it is made of. -/
def step (budget : Nat) : Rule → List Token → Reading
  | .statement => readStatement st rule
  | .ifStatement => readIf st rule
  | .whileStatement => readWhile st rule
  | .blockStatement => readBlock rule budget
  | .returnStatement => readReturn rule
  | .printStatement => readPrint rule
  | .functionStatement => readFunctionStatement st rule
  | .assignment => readAssignment st rule
  | .expression => rule (if st.has .booleans then disjunction else sum)
  | .disjunction => readLeftward st rule budget .conjunction ["||"]
  | .conjunction => readLeftward st rule budget .negation ["&&"]
  | .negation => readNegation st rule
  | .comparison => readLeftward st rule budget .sum ["<", ">", "<=", ">=", "==", "!="]
  | .sum => readLeftward st rule budget .product ["+", "-"]
  | .product => readLeftward st rule budget .factor ["*", "/"]
  | .factor => readFactor st rule
  | .callable => fun ts => do
    let (callee, rest) ← rule .simple ts
    calls st rule budget callee rest
  | .simple => readSimple st rule .simple
  | .functionLiteral => readFunction rule
  | .nameList => readNameList st budget
  | .expressionList => readExpressionList rule budget

end Rule

/-- Applies a rule within a budget. -/
def Rule.apply (st : Stage) : Nat → Rule → List Token → Reading
  | 0, _, _ => .error .exhausted
  | budget + 1, rule, ts => Rule.step st (Rule.apply st budget) budget rule ts

/-- A budget that no rule exceeds on so many tokens. -/
def Rule.budget (tokens : Nat) : Nat :=
  16 * tokens + 32

/-- Applies a rule to a list of tokens. -/
def Rule.read (st : Stage) (rule : Rule) (ts : List Token) : Reading :=
  Rule.apply st (Rule.budget ts.length) rule ts

/-- The tree of a program: its first statement. -/
def parse (st : Stage) (ts : List Token) : Except Fault Tree := do
  let start : Rule := if st.has .assignments then .statement else .expression
  let (tree, _) ← start.read st (ts ++ [Token.ending])
  return tree

end Stepwise
