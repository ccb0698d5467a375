import Stepwise.Eval.Name
import Stepwise.Eval.Operation
import Stepwise.Token.Lexeme
import Stepwise.Tree.Basic

/-!
# Abstract syntax

The trees that the parser makes from `blocks` on, as syntax of their own: an
`Expression` or a `Statement` says what a program is, its `tree` how the program
is kept in records. A tree is a record like any other and may have any fields;
syntax has no junk, so a statement about all programs is a statement about all
syntax.

- `Identifier`, `Operator`: the leaves, names and signs of operators;
- `Expression.tree`, `Statement.tree`: the record of a piece of syntax;
- `Expression.listTree`: an expression with others behind it in a list, which the
  record of the first one holds;
- `Expression.Fits`, `Statement.Fits`: a text of a stage can hold the syntax;
- `Statement.targets`: the names that a statement may assign.
-/

namespace Stepwise

/-! ## Leaves -/

/-- The spelling of a name: a letter or underscore, then letters, digits and underscores. -/
def Lexeme.isName : List Char → Bool
  | [] => false
  | c :: rest => isNameStart c && rest.all isNamePart

/-- A name that starts with no reserved word: a text that starts with one is cut behind it. -/
def Lexeme.isUnreserved (cs : List Char) : Bool :=
  ("true" :: "false" :: Stage.keywords).all fun word => !word.toList.isPrefixOf cs

/-- A name that a program can use. -/
structure Identifier where
  text : String
  spelled : Lexeme.isName text.toList = true := by decide
deriving DecidableEq

namespace Identifier

/-- A name as a leaf of a tree. -/
def tree (st : Stage) (x : Identifier) : Tree :=
  Tree.leaf st st.nameTag (.text x.text)

/-- No program can name the field that holds the enclosing frame. -/
theorem text_ne_parent (x : Identifier) : x.text ≠ Name.parentField := by
  intro h
  have hs := x.spelled
  rw [h] at hs
  exact absurd hs (by decide)

theorem ext_text {x y : Identifier} (h : x.text = y.text) : x = y := by
  cases x
  cases y
  simp_all

end Identifier

/-- The value that a number is. -/
def Numeric.value : Numeric → Value
  | .int n => .int n
  | .float x => .float x

/-- The operators between two expressions. -/
inductive Operator where
  | plus
  | minus
  | times
  | divide
  | less
  | greater
  | lessEqual
  | greaterEqual
  | equal
  | unequal
  | and
  | or
deriving DecidableEq, Repr

namespace Operator

/-- How an operator is written, which is also the tag of its nodes. -/
def sign : Operator → String
  | .plus => "+"
  | .minus => "-"
  | .times => "*"
  | .divide => "/"
  | .less => "<"
  | .greater => ">"
  | .lessEqual => "<="
  | .greaterEqual => ">="
  | .equal => "=="
  | .unequal => "!="
  | .and => "&&"
  | .or => "||"

/-- What an operator does to the values of its operands. -/
def apply : Operator → Value → Value → Except Fault Value
  | .plus => Value.add
  | .minus => Value.subtract
  | .times => Value.multiply
  | .divide => Value.divide
  | .less => Operation.relation .less
  | .greater => Operation.relation .greater
  | .lessEqual => Operation.relation .lessEqual
  | .greaterEqual => Operation.relation .greaterEqual
  | .equal => fun a b => .ok (Value.ofTruth (a.equal b))
  | .unequal => fun a b => .ok (Value.ofTruth (!a.equal b))
  | .and => Operation.conjunction
  | .or => Operation.disjunction

end Operator

/-! ## Expressions and statements -/

mutual

/-- An expression. -/
inductive Expression where
  | number (value : Numeric)
  | boolean (truth : Bool)
  | name (x : Identifier)
  | negate (operand : Expression)
  | not (operand : Expression)
  | binary (op : Operator) (left right : Expression)
  | call (callee : Expression) (arguments : List Expression)
  | function (parameters : List Identifier) (body : List Statement)

/-- A statement. -/
inductive Statement where
  | block (statements : List Statement)
  | branch (condition : Expression) (consequence : Statement) (alternative : Option Statement)
  | loop (condition : Expression) (body : Statement)
  | giveBack (value : Option Expression)
  | print (arguments : List Expression)
  | assign (target : Identifier) (value : Expression)
  | expression (e : Expression)

end

/-- The expression is a call. -/
def Expression.isCall : Expression → Bool
  | .call _ _ => true
  | _ => false

/-- The chain of a function's parameters. -/
def Identifier.listTree (st : Stage) (xs : List Identifier) : Tree :=
  Tree.chain (xs.map (Identifier.tree st))

mutual

/-- The tree of an expression. -/
def Expression.tree (st : Stage) : Expression → Tree
  | .number v => Tree.leaf st st.numberTag v.value
  | .boolean b => Tree.leaf st st.booleanTag (Value.ofTruth b)
  | .name x => x.tree st
  | .negate e => Tree.unary st "negate" (e.tree st)
  | .not e => Tree.unary st "not" (e.tree st)
  | .binary op l r => Tree.binary st op.sign (l.tree st) (r.tree st)
  | .call f args => Tree.call st (f.tree st) (Tree.chain (Expression.trees st args))
  | .function ps body =>
    Tree.function (Identifier.listTree st ps) (Tree.block (Statement.trees st body))

/-- The trees of expressions, one by one. -/
def Expression.trees (st : Stage) : List Expression → List Tree
  | [] => []
  | e :: es => e.tree st :: Expression.trees st es

/-- The tree of a statement. -/
def Statement.tree (st : Stage) : Statement → Tree
  | .block ss => Tree.block (Statement.trees st ss)
  | .branch c s none => Tree.branch st (c.tree st) (s.tree st) none
  | .branch c s (some a) => Tree.branch st (c.tree st) (s.tree st) (some (a.tree st))
  | .loop c s => Tree.loop st (c.tree st) (s.tree st)
  | .giveBack none => Tree.giveBack none
  | .giveBack (some e) => Tree.giveBack (some (e.tree st))
  | .print es => Tree.output (Tree.chain (Expression.trees st es))
  | .assign x e => Tree.assign st (x.tree st) (e.tree st)
  | .expression e => e.tree st

/-- The trees of statements, one by one. -/
def Statement.trees (st : Stage) : List Statement → List Tree
  | [] => []
  | s :: ss => s.tree st :: Statement.trees st ss

end

/-- The chain of a list of expressions, as call and print nodes hold it. -/
def Expression.listTree (st : Stage) (es : List Expression) : Tree :=
  Tree.chain (Expression.trees st es)

/-- An expression by itself is a list of one. -/
theorem Expression.tree_eq_listTree (st : Stage) (e : Expression) :
    e.tree st = Expression.listTree st [e] := rfl

/-! ## What a stage can say -/

/-- The stage that brings the operator. -/
def Operator.origin : Operator → Stage
  | .plus | .minus | .times | .divide => .expressions
  | .less | .greater | .lessEqual | .greaterEqual | .equal | .unequal | .and | .or => .booleans

mutual

/-- A text of the stage can hold the expression: the stage has everything that it is made of, its
numbers are short enough to be written, and none of its names starts with a reserved word. -/
def Expression.Fits (st : Stage) : Expression → Prop
  | .number v => v.value.unwritable = false
  | .boolean _ => st.has .booleans = true
  | .name x => st.has .assignments = true ∧ Lexeme.isUnreserved x.text.toList = true
  | .negate e | .not e => st.has .booleans = true ∧ e.Fits st
  | .binary op l r => st.has op.origin = true ∧ l.Fits st ∧ r.Fits st
  | .call f args => st.has .functions = true ∧ f.Fits st ∧ Expression.AllFit st args
  | .function ps body => st.has .functions = true ∧
      (∀ x ∈ ps, Lexeme.isUnreserved x.text.toList = true) ∧ Statement.AllFit st body

/-- A text of the stage can hold all of the expressions. -/
def Expression.AllFit (st : Stage) : List Expression → Prop
  | [] => True
  | e :: es => e.Fits st ∧ Expression.AllFit st es

/-- A text of the stage can hold the statement. -/
def Statement.Fits (st : Stage) : Statement → Prop
  | .block ss => st.has .blocks = true ∧ Statement.AllFit st ss
  | .branch c s none => st.has .conditions = true ∧ c.Fits st ∧ s.Fits st
  | .branch c s (some a) => st.has .blocks = true ∧ c.Fits st ∧ s.Fits st ∧ a.Fits st
  | .loop c s => st.has .conditions = true ∧ c.Fits st ∧ s.Fits st
  | .giveBack none => st.has .functions = true
  | .giveBack (some e) => st.has .functions = true ∧ e.Fits st
  | .print es => st.has .functions = true ∧ Expression.AllFit st es
  | .assign x e => st.has .assignments = true ∧ Lexeme.isUnreserved x.text.toList = true ∧ e.Fits st
  | .expression e => e.Fits st

/-- A text of the stage can hold all of the statements. -/
def Statement.AllFit (st : Stage) : List Statement → Prop
  | [] => True
  | s :: ss => s.Fits st ∧ Statement.AllFit st ss

end

/-! ## Targets of assignments -/

mutual

/-- The names that a statement may assign in its own frame; function bodies run in frames of
their own. -/
def Statement.targets : Statement → List Identifier
  | .block ss => Statement.targetsOf ss
  | .branch _ s none => s.targets
  | .branch _ s (some a) => s.targets ++ a.targets
  | .loop _ s => s.targets
  | .assign x _ => [x]
  | .giveBack _ | .print _ | .expression _ => []

/-- The names that a sequence of statements may assign. -/
def Statement.targetsOf : List Statement → List Identifier
  | [] => []
  | s :: ss => s.targets ++ Statement.targetsOf ss

end

end Stepwise
