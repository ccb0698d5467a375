import Mathlib.Data.List.Forall2
import Stepwise.Proofs.ParserImage
import Stepwise.Proofs.SyntaxTrees
import Stepwise.Tree.Grammar

/-!
# The grammar as a relation

The rules that `Grammar.rules` states in words, for the last stage, as an inductive
relation between words and trees: `Grammar.Derives closed ph ws t` says that the words
`ws` are a phrase of the kind `ph` and that `t` is the tree of this phrase. It knows
nothing of the parser: there is no order in which alternatives are tried and no word
looked at ahead.

- `Word`: what a token says apart from where it stands; `Token.Bears` ties the two;
- `Spans ts ws rest`: the tokens `ts` begin with tokens that bear the words `ws`, and
  `rest` is what stands behind them;
- `Grammar.Phrase`: the rules, and the inner parts of the three kinds of lists;
- `Grammar.Derives`: the relation. Its parameter says which statements may stand
  between an `if` and its `else`. With all statements allowed this is the grammar as it
  is written down; with `Tree.Closed` the `else` belongs to the nearest `if`.

Three things are read into the written rules. An `if` may lack its `else`. Lists of
arguments may be repeated behind an expression. A function statement stands for an
assignment: its name, the sign `=` and an expression that begins with the function.
-/

namespace Stepwise

/-! ## Words -/

/-- A word of a program. -/
inductive Word where
  /-- A keyword, an operator or a mark. -/
  | sign (tag : String)
  | number (value : Value)
  | boolean (value : Value)
  | name (value : Value)
  /-- The keyword `function` at the head of a function statement. -/
  | define
  /-- The name behind it. -/
  | defined (value : Value)

/-- The tag of the tokens that bear the word. -/
def Word.tag : Word → String
  | .sign tag => tag
  | .number _ => "<number>"
  | .boolean _ => "<boolean>"
  | .name _ | .defined _ => "<identifier>"
  | .define => "function"

/-- An expression may start with the word. -/
def Word.starts : Word → Bool
  | .number _ | .boolean _ | .name _ => true
  | .sign tag => tag ∈ ["(", "-", "!", "function"]
  | .define | .defined _ => false

/-- The first word of an expression with the tag of the keyword is the sign. -/
theorem Word.eq_function_of_starts {w : Word} (h : w.starts = true) (htag : w.tag = "function") :
    w = .sign "function" := by
  cases w with
  | sign tag => exact congrArg Word.sign htag
  | number | boolean | name => simp [Word.tag] at htag
  | define | defined => cases h

/-- Of the words that start an expression only a name has the tag of names. -/
theorem Word.eq_name_of_starts {w : Word} (h : w.starts = true) (htag : w.tag = "<identifier>") :
    ∃ v, w = .name v := by
  cases w with
  | name v => exact ⟨v, rfl⟩
  | sign tag =>
    subst htag
    simp [Word.starts] at h
  | number | boolean => simp [Word.tag] at htag
  | define | defined => cases h

namespace Token

/-- The token has this tag. -/
def Is (tag : String) (t : Token) : Prop :=
  t.field "tag" = .ok (.text tag)

/-- The token bears the word: it has the word's tag, and a literal's value. The keyword of a
function statement has a position as well: the sign of the assignment takes it over. -/
def Bears (t : Token) : Word → Prop
  | .sign tag => Is tag t
  | .number v => Is "<number>" t ∧ t.field "value" = .ok v
  | .boolean v => Is "<boolean>" t ∧ t.field "value" = .ok v
  | .name v | .defined v => Is "<identifier>" t ∧ t.field "value" = .ok v
  | .define => Is "function" t ∧ ∃ position, t.field "position" = .ok position

theorem Bears.is {t : Token} {w : Word} (h : Bears t w) : Is w.tag t := by
  cases w with
  | sign tag => exact h
  | number | boolean | name | define | defined => exact h.1

/-- A token has one tag only. -/
theorem Is.eq {t : Token} {tag tag' : String} (h : Is tag t) (h' : Is tag' t) : tag = tag' :=
  Value.text.inj (Except.ok.inj (h.symm.trans h'))

end Token

/-- The tokens `ts` are those of the words, and then `rest`. -/
def Spans : List Token → List Word → List Token → Prop
  | ts, [], rest => ts = rest
  | ts, w :: ws, rest => ∃ t ts', ts = t :: ts' ∧ Token.Bears t w ∧ Spans ts' ws rest

namespace Spans

variable {ts mid rest : List Token} {w : Word} {ws ws' : List Word}

/-- A phrase of two parts is the first part with the second behind it. -/
theorem append_iff :
    Spans ts (ws ++ ws') rest ↔ ∃ mid, Spans ts ws mid ∧ Spans mid ws' rest := by
  induction ws generalizing ts with
  | nil => simp [Spans]
  | cons w ws ih =>
    simp only [List.cons_append, Spans, ih]
    constructor
    · rintro ⟨t, ts', rfl, hw, mid, hws, hws'⟩
      exact ⟨mid, ⟨t, ts', rfl, hw, hws⟩, hws'⟩
    · rintro ⟨mid, ⟨t, ts', rfl, hw, hws⟩, hws'⟩
      exact ⟨t, ts', rfl, hw, mid, hws, hws'⟩

theorem append (h : Spans ts ws mid) (h' : Spans mid ws' rest) : Spans ts (ws ++ ws') rest :=
  append_iff.2 ⟨mid, h, h'⟩

theorem one {t : Token} (h : Token.Bears t w) : Spans (t :: rest) [w] rest :=
  ⟨t, rest, rfl, h, rfl⟩

theorem cons {t : Token} (h : Token.Bears t w) (h' : Spans ts ws rest) :
    Spans (t :: ts) (w :: ws) rest :=
  ⟨t, ts, rfl, h, h'⟩

theorem sign {t : Token} {tag : String} (h : Token.Is tag t) (h' : Spans ts ws rest) :
    Spans (t :: ts) (.sign tag :: ws) rest :=
  .cons h h'

theorem mark {t : Token} {tag : String} (h : Token.Is tag t) :
    Spans (t :: rest) [.sign tag] rest :=
  .one h

theorem one_iff : Spans ts [w] rest ↔ ∃ t, ts = t :: rest ∧ Token.Bears t w := by
  constructor
  · rintro ⟨t, ts', rfl, hw, rfl⟩
    exact ⟨t, rfl, hw⟩
  · rintro ⟨t, rfl, hw⟩
    exact one hw

/-- Spanning in terms of the tokens that are spanned. -/
theorem iff_forall₂ :
    Spans ts ws rest ↔ ∃ p, ts = p ++ rest ∧ List.Forall₂ Token.Bears p ws := by
  induction ws generalizing ts with
  | nil => simp [Spans]
  | cons w ws ih =>
    simp only [Spans, ih, List.forall₂_cons_right_iff]
    constructor
    · rintro ⟨t, _, rfl, hw, p, rfl, hp⟩
      exact ⟨t :: p, rfl, t, p, hw, hp, rfl⟩
    · rintro ⟨_, rfl, t, p, hw, hp, rfl⟩
      exact ⟨t, p ++ rest, rfl, hw, p, rfl, hp⟩

theorem length_eq (h : Spans ts ws rest) : ts.length = ws.length + rest.length := by
  obtain ⟨p, rfl, hp⟩ := iff_forall₂.1 h
  rw [List.length_append, hp.length_eq]

end Spans

/-! ## Statements that an `else` would continue -/

namespace Tree

/-- The last statement in the tree is an `if` without `else` or a `return` without value. In
front of an `else` the one would take it for its own, and the other would look for a value. -/
inductive Open : Tree → Prop
  | branch (c s : Tree) : Open (Tree.branch .returns c s none)
  | alternative (c s : Tree) {a : Tree} : Open a → Open (Tree.branch .returns c s (some a))
  | loop (c : Tree) {s : Tree} : Open s → Open (Tree.loop .returns c s)
  | giveBack : Open (Tree.giveBack none)

/-- The tree may stand in front of an `else`. -/
def Closed (t : Tree) : Prop := ¬ Open t

/-- Only an `if`, a `while` and a `return` are open. -/
theorem Open.tag {t : Tree} (h : Open t) :
    ∃ tag ∈ ["if", "while", "return"], t.field "tag" = .ok (.text tag) := by
  cases h with
  | branch => exact ⟨"if", by simp, rfl⟩
  | alternative => exact ⟨"if", by simp, rfl⟩
  | loop => exact ⟨"while", by simp, rfl⟩
  | giveBack => exact ⟨"return", by simp, rfl⟩

/-- Any other tag belongs to a closed tree. -/
theorem closed_of_tag {t : Tree} {tag : String} (h : t.field "tag" = .ok (.text tag))
    (htag : tag ∉ ["if", "while", "return"]) : Closed t := by
  intro hopen
  obtain ⟨tag', hmem, htag'⟩ := hopen.tag
  have heq : tag' = tag := Value.text.inj (Except.ok.inj (htag'.symm.trans h))
  exact htag (heq ▸ hmem)

/-- Nodes with different tags differ. -/
theorem ne_of_tag {t t' : Tree} {tag tag' : String} (h : t.field "tag" = .ok (.text tag))
    (h' : t'.field "tag" = .ok (.text tag')) (hne : tag ≠ tag') : t ≠ t' := by
  intro heq
  exact hne (Value.text.inj (Tree.field_inj "tag" heq h h'))

/-- An `if` with an alternative is as open as the alternative. -/
theorem open_alternative {c s a : Tree} (h : Open (Tree.branch .returns c s (some a))) :
    Open a := by
  generalize ht : Tree.branch .returns c s (some a) = t at h
  cases h with
  | branch => cases congrArg (Value.field "else") ht
  | alternative c' s' ha =>
    have heq := Tree.field_inj "else" ht rfl rfl
    rwa [heq]
  | loop => exact absurd ht (ne_of_tag rfl rfl (by decide))
  | giveBack => exact absurd ht (ne_of_tag rfl rfl (by decide))

/-- A loop is as open as its body. -/
theorem open_body {c s : Tree} (h : Open (Tree.loop .returns c s)) : Open s := by
  generalize ht : Tree.loop .returns c s = t at h
  cases h with
  | loop c' hs =>
    have heq := Tree.field_inj "do" ht rfl rfl
    rwa [heq]
  | branch => exact absurd ht (ne_of_tag rfl rfl (by decide))
  | alternative => exact absurd ht (ne_of_tag rfl rfl (by decide))
  | giveBack => exact absurd ht (ne_of_tag rfl rfl (by decide))

/-- A `return` with a value is closed. -/
theorem closed_giveBack (v : Tree) : Closed (Tree.giveBack (some v)) := by
  intro h
  generalize ht : Tree.giveBack (some v) = t at h
  cases h with
  | giveBack => cases congrArg (Value.field "value") ht
  | branch => exact absurd ht (ne_of_tag rfl rfl (by decide))
  | alternative => exact absurd ht (ne_of_tag rfl rfl (by decide))
  | loop => exact absurd ht (ne_of_tag rfl rfl (by decide))

end Tree

/-! ## Phrases -/

namespace Rule

/-- For a rule of operands with operators between them: the rule of its operands, which binds
tighter, and its operators. -/
def level? : Rule → Option (Rule × List String)
  | .disjunction => some (.conjunction, ["||"])
  | .conjunction => some (.negation, ["&&"])
  | .comparison => some (.sum, ["<", ">", "<=", ">=", "==", "!="])
  | .sum => some (.product, ["+", "-"])
  | .product => some (.factor, ["*", "/"])
  | _ => none

/-- The operators of all these rules. -/
def operators : List String :=
  ["||", "&&", "<", ">", "<=", ">=", "==", "!=", "+", "-", "*", "/"]

/-- The alternatives of a statement. -/
def forms : List Rule :=
  [.blockStatement, .ifStatement, .whileStatement, .functionStatement, .returnStatement,
   .printStatement, .assignment, .expression]

theorem not_mem_forms_of_level {r : Rule} {level : Rule × List String}
    (h : r.level? = some level) : r ∉ statement :: forms := by
  cases r <;> first | decide | cases h

end Rule

namespace Grammar

/-- The kinds of phrases: what a rule reads, and what stands inside a list of expressions, a
list of names or a block that is not empty. -/
inductive Phrase where
  | rule (r : Rule)
  | expressions
  | names
  | statements
deriving DecidableEq

/-- The words are a phrase of this kind with this tree. -/
inductive Derives (closed : Tree → Prop) : Phrase → List Word → Tree → Prop
  -- simple_expression = <number> | <boolean> | <identifier> | "(" expression ")"
  --   | "-" simple_expression | function_expression
  | number (v : Value) :
      Derives closed (.rule .simple) [.number v] (Tree.leaf .returns "<number>" v)
  | boolean (v : Value) :
      Derives closed (.rule .simple) [.boolean v] (Tree.leaf .returns "<boolean>" v)
  | name (v : Value) :
      Derives closed (.rule .simple) [.name v] (Tree.leaf .returns "<identifier>" v)
  | parenthesized {p : List Word} {e : Tree} :
      Derives closed (.rule .expression) p e →
      Derives closed (.rule .simple) (.sign "(" :: p ++ [.sign ")"]) e
  | negated {p : List Word} {e : Tree} :
      Derives closed (.rule .simple) p e →
      Derives closed (.rule .simple) (.sign "-" :: p) (Tree.unary .returns "negate" e)
  | function {p : List Word} {f : Tree} :
      Derives closed (.rule .functionLiteral) p f →
      Derives closed (.rule .simple) p f
  -- callable_expression = simple_expression { expression_list }
  | uncalled {p : List Word} {e : Tree} :
      Derives closed (.rule .simple) p e →
      Derives closed (.rule .callable) p e
  | called {p q : List Word} {f es : Tree} :
      Derives closed (.rule .callable) p f →
      Derives closed (.rule .expressionList) q es →
      Derives closed (.rule .callable) (p ++ q) (Tree.call .returns f es)
  -- arithmetic_factor = callable_expression
  | factor {p : List Word} {e : Tree} :
      Derives closed (.rule .callable) p e →
      Derives closed (.rule .factor) p e
  -- arithmetic_term = arithmetic_factor { ("*" | "/") arithmetic_factor }, and in the same way
  -- arithmetic_expression, relational_expression, logical_term and logical_expression:
  -- what stands before an operator is of the same level, what stands behind it binds tighter
  | operand {r operand : Rule} {signs : List String} {p : List Word} {e : Tree} :
      r.level? = some (operand, signs) →
      Derives closed (.rule operand) p e →
      Derives closed (.rule r) p e
  | binary {r operand : Rule} {signs : List String} {tag : String} {p q : List Word}
      {left right : Tree} :
      r.level? = some (operand, signs) → tag ∈ signs →
      Derives closed (.rule r) p left →
      Derives closed (.rule operand) q right →
      Derives closed (.rule r) (p ++ .sign tag :: q) (Tree.binary .returns tag left right)
  -- logical_factor = relational_expression | "!" logical_factor
  | plain {p : List Word} {e : Tree} :
      Derives closed (.rule .comparison) p e →
      Derives closed (.rule .negation) p e
  | not {p : List Word} {e : Tree} :
      Derives closed (.rule .negation) p e →
      Derives closed (.rule .negation) (.sign "!" :: p) (Tree.unary .returns "not" e)
  -- expression = logical_expression
  | expression {p : List Word} {e : Tree} :
      Derives closed (.rule .disjunction) p e →
      Derives closed (.rule .expression) p e
  -- function_expression = "function" identifier_list block_statement
  | literal {p q : List Word} {xs body : Tree} :
      Derives closed (.rule .nameList) p xs →
      Derives closed (.rule .blockStatement) q body →
      Derives closed (.rule .functionLiteral) (.sign "function" :: p ++ q)
        (Tree.function xs body)
  -- identifier_list = "(" [ <identifier> { "," <identifier> } ] ")"
  | noNames : Derives closed (.rule .nameList) [.sign "(", .sign ")"] .null
  | someNames {p : List Word} {xs : Tree} :
      Derives closed .names p xs →
      Derives closed (.rule .nameList) (.sign "(" :: p ++ [.sign ")"]) xs
  | lastName (v : Value) :
      Derives closed .names [.name v] (Tree.leaf .returns "<identifier>" v)
  | moreNames (v : Value) {p : List Word} {xs : Tree} :
      Derives closed .names p xs →
      Derives closed .names (.name v :: .sign "," :: p)
        (Tree.follow xs (Tree.leaf .returns "<identifier>" v))
  -- expression_list = "(" [ expression { "," expression } ] ")"
  | noExpressions : Derives closed (.rule .expressionList) [.sign "(", .sign ")"] .null
  | someExpressions {p : List Word} {es : Tree} :
      Derives closed .expressions p es →
      Derives closed (.rule .expressionList) (.sign "(" :: p ++ [.sign ")"]) es
  | lastExpression {p : List Word} {e : Tree} :
      Derives closed (.rule .expression) p e →
      Derives closed .expressions p e
  | moreExpressions {p q : List Word} {e es : Tree} :
      Derives closed (.rule .expression) p e →
      Derives closed .expressions q es →
      Derives closed .expressions (p ++ .sign "," :: q) (Tree.follow es e)
  -- assignment = <identifier> "=" expression
  | assignment (v : Value) {p : List Word} {e : Tree} :
      Derives closed (.rule .expression) p e →
      Derives closed (.rule .assignment) (.name v :: .sign "=" :: p)
        (Tree.assign .returns (Tree.leaf .returns "<identifier>" v) e)
  -- block_statement = "{" {";"} [ statement { ";" {";"} statement } {";"} ] "}"
  | emptyBlock (n : Nat) :
      Derives closed (.rule .blockStatement)
        (.sign "\x7b" :: List.replicate n (.sign ";") ++ [.sign "\x7d"]) (Tree.block [])
  | block (n k : Nat) {p : List Word} {body : Tree} :
      Derives closed .statements p body →
      Derives closed (.rule .blockStatement)
        (.sign "\x7b" :: List.replicate n (.sign ";") ++ p ++ List.replicate k (.sign ";") ++
          [.sign "\x7d"]) body
  | lastStatement {p : List Word} {s : Tree} :
      Derives closed (.rule .statement) p s →
      Derives closed .statements p (Tree.node "block" [("statement", s)])
  | moreStatements (n : Nat) {p q : List Word} {s body : Tree} :
      Derives closed (.rule .statement) p s →
      Derives closed .statements q body →
      Derives closed .statements (p ++ List.replicate (n + 1) (.sign ";") ++ q)
        (Tree.node "block" [("statement", s), ("next", body)])
  -- if_statement = "if" "(" expression ")" statement [ "else" statement ]
  | ifThen {p q : List Word} {c s : Tree} :
      Derives closed (.rule .expression) p c →
      Derives closed (.rule .statement) q s →
      Derives closed (.rule .ifStatement)
        (.sign "if" :: .sign "(" :: p ++ .sign ")" :: q) (Tree.branch .returns c s none)
  | ifElse {p q q' : List Word} {c s a : Tree} :
      Derives closed (.rule .expression) p c →
      Derives closed (.rule .statement) q s → closed s →
      Derives closed (.rule .statement) q' a →
      Derives closed (.rule .ifStatement)
        (.sign "if" :: .sign "(" :: p ++ .sign ")" :: q ++ .sign "else" :: q')
        (Tree.branch .returns c s (some a))
  -- while_statement = "while" "(" expression ")" statement
  | loop {p q : List Word} {c s : Tree} :
      Derives closed (.rule .expression) p c →
      Derives closed (.rule .statement) q s →
      Derives closed (.rule .whileStatement)
        (.sign "while" :: .sign "(" :: p ++ .sign ")" :: q) (Tree.loop .returns c s)
  -- return_statement = "return" [ expression ]
  | giveBack : Derives closed (.rule .returnStatement) [.sign "return"] (Tree.giveBack none)
  | giveBackValue {p : List Word} {e : Tree} :
      Derives closed (.rule .expression) p e →
      Derives closed (.rule .returnStatement) (.sign "return" :: p) (Tree.giveBack (some e))
  -- print_statement = "print" expression_list
  | print {p : List Word} {es : Tree} :
      Derives closed (.rule .expressionList) p es →
      Derives closed (.rule .printStatement) (.sign "print" :: p) (Tree.output es)
  -- function_statement = "function" <identifier> identifier_list block_statement,
  -- for <identifier> "=" "function" identifier_list block_statement, continued as an expression
  | functionStatement (v : Value) {p : List Word} {e : Tree} :
      Derives closed (.rule .expression) (.sign "function" :: p) e →
      Derives closed (.rule .functionStatement) (.define :: .defined v :: p)
        (Tree.assign .returns (Tree.leaf .returns "<identifier>" v) e)
  -- statement = block_statement | if_statement | while_statement | function_statement
  --   | return_statement | print_statement | assignment | expression
  | statement {r : Rule} {p : List Word} {t : Tree} :
      r ∈ Rule.forms →
      Derives closed (.rule r) p t →
      Derives closed (.rule .statement) p t

/-! ## Trees of expressions -/

/-- The phrases that are expressions. -/
def Phrase.isExpression : Phrase → Bool
  | .rule r => r ∈ [.expression, .disjunction, .conjunction, .negation, .comparison, .sum, .product,
      .factor, .callable, .simple, Rule.functionLiteral]
  | _ => false

/-- A rule with operators, and the rule of its operands, are rules of expressions. -/
theorem level_isExpression {r operand : Rule} {signs : List String}
    (h : r.level? = some (operand, signs)) :
    (Phrase.rule r).isExpression = true ∧ (Phrase.rule operand).isExpression = true ∧
      signs ⊆ Rule.operators := by
  cases r <;> simp only [Rule.level?, Option.some.injEq, Prod.mk.injEq, reduceCtorEq] at h <;>
    obtain ⟨rfl, rfl⟩ := h <;> decide

/-- The node of an expression is not in a chain, and its tag is no statement's. -/
theorem Derives.expression_node {closed : Tree → Prop} {ph : Phrase} {ws : List Word} {t : Tree}
    (h : Derives closed ph ws t) (hph : ph.isExpression = true) :
    ∃ tag parts, t = Tree.node tag parts ∧ tag ∉ ["if", "while", "return"] ∧
      Fields.get? "next" parts = none := by
  induction h with
  | number v => exact ⟨_, [("value", v)], rfl, by decide, rfl⟩
  | boolean v => exact ⟨_, [("value", v)], rfl, by decide, rfl⟩
  | name v => exact ⟨_, [("value", v)], rfl, by decide, rfl⟩
  | @negated p e _ _ => exact ⟨_, [("value", e)], rfl, by decide, rfl⟩
  | @not p e _ _ => exact ⟨_, [("value", e)], rfl, by decide, rfl⟩
  | @called p q f es _ _ _ _ =>
    exact ⟨_, [("expression", f), ("arguments", es)], rfl, by decide, rfl⟩
  | @literal p q xs body _ _ _ _ =>
    exact ⟨_, [("parameters", xs), ("body", body)], rfl, by decide, rfl⟩
  -- an operator's sign is the tag, and no operator is spelled as a statement
  | @binary r operand signs tag p q left right hr htag _ _ _ _ =>
    have hsign : ∀ tag ∈ Rule.operators, tag ∉ ["if", "while", "return"] := by decide
    exact ⟨tag, [("left", left), ("right", right)], rfl,
      hsign tag ((level_isExpression hr).2.2 htag), rfl⟩
  | operand hr _ ih => exact ih (level_isExpression hr).2.1
  -- these have the tree of their part
  | parenthesized _ ih | function _ ih | uncalled _ ih | factor _ ih | plain _ ih
  | expression _ ih => exact ih rfl
  | _ => cases hph

/-- No `else` continues an expression. -/
theorem Derives.closed_of_expression {closed : Tree → Prop} {ws : List Word} {t : Tree}
    (h : Derives closed (.rule .expression) ws t) : Tree.Closed t := by
  obtain ⟨tag, parts, rfl, htag, -⟩ := h.expression_node rfl
  exact Tree.closed_of_tag rfl htag

/-- An expression starts with a word that may start one. -/
theorem Derives.starts {closed : Tree → Prop} {ph : Phrase} {ws : List Word} {t : Tree}
    (h : Derives closed ph ws t) (hph : ph.isExpression = true) :
    ∃ w rest, ws = w :: rest ∧ w.starts = true := by
  induction h with
  | number v | boolean v | name v => exact ⟨_, [], rfl, rfl⟩
  | parenthesized | negated | not | literal => exact ⟨_, _, rfl, by decide⟩
  | operand hr _ ih => exact ih (level_isExpression hr).2.1
  | function _ ih | uncalled _ ih | factor _ ih | plain _ ih | expression _ ih => exact ih rfl
  | called _ _ ih _ =>
    obtain ⟨w, rest, rfl, hw⟩ := ih rfl
    exact ⟨w, _, rfl, hw⟩
  | binary hr _ _ _ ih _ =>
    obtain ⟨w, rest, rfl, hw⟩ := ih (level_isExpression hr).1
    exact ⟨w, _, rfl, hw⟩
  | _ => cases hph

end Grammar

end Stepwise
