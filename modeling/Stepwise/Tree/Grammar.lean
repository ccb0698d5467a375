import Stepwise.Stage

/-!
# The grammar in words

The rules of the last two stages as their documentation writes them: brackets
enclose what may be left out, braces what may be repeated.
-/

namespace Stepwise.Grammar

/-- The rules of factors, in which the two stages differ. -/
def factorRules (st : Stage) : List String :=
  if st.has .returns then
    ["simple_expression = <number> | <boolean> | <identifier> | \"(\" expression \")\" | " ++
       "\"-\" simple_expression | function_expression;",
     "callable_expression = simple_expression [ expression_list ];",
     "arithmetic_factor = callable_expression;"]
  else
    ["arithmetic_factor = <number> | <boolean> | <identifier> [ expression_list ] | " ++
       "\"(\" expression \")\" | \"-\" arithmetic_factor | function_expression;"]

/-- The rules that the two stages share. -/
def sharedRules : List String :=
  ["arithmetic_term = arithmetic_factor \x7b (\"*\" | \"/\") arithmetic_factor \x7d;",
   "arithmetic_expression = arithmetic_term \x7b (\"+\" | \"-\") arithmetic_term \x7d;",
   "relational_expression = arithmetic_expression " ++
     "\x7b (\"<\" | \">\" | \"<=\" | \">=\" | \"==\" | \"!=\") arithmetic_expression \x7d;",
   "logical_factor = relational_expression | \"!\" logical_factor;",
   "logical_term = logical_factor \x7b \"&&\" logical_factor \x7d;",
   "logical_expression = logical_term \x7b \"||\" logical_term \x7d;",
   "function_expression = \"function\" identifier_list block_statement;",
   "expression = logical_expression;",
   "identifier_list = \"(\" [ <identifier> \x7b \",\" <identifier> ] \x7d \")\";",
   "expression_list = \"(\" [ expression \x7b \",\" expression \x7d ] \")\";",
   "assignment = <identifier> \"=\" expression;",
   "block_statement = \"\x7b\" \x7b\";\"\x7d [ statement " ++
     "\x7b \";\" \x7b\";\"\x7d statement \x7d \x7b\";\"\x7d ] \"\x7d\";",
   "if_statement = \"if\" \"(\" expression \")\" statement \"else\" statement;",
   "while_statement = \"while\" \"(\" expression \")\" statement;",
   "return_statement = \"return\" [ expression ];",
   "print_statement = \"print\" expression_list;",
   "function_statement = \"function\" <identifier> identifier_list block_statement;",
   "statement = block_statement | if_statement | while_statement |  function_statement | " ++
     "return_statement | print_statement | assignment | expression;",
   "program = statement"]

/-- All rules of a stage. -/
def rules (st : Stage) : List String :=
  factorRules st ++ sharedRules

/-- The name of a rule: what stands before the first equals sign between spaces. -/
def ruleName (rule : String) : String :=
  (rule.splitOn " = ").headD rule

end Stepwise.Grammar
