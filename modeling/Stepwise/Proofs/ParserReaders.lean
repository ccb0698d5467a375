import Stepwise.Proofs.Derivation
import Stepwise.Proofs.ParserBudget

/-!
# What the readers do on the tokens they look for

One lemma for each alternative of a rule: with the tokens that announce the alternative at
the head, and with the readings of its parts given, the rule reads the whole. The parts
are read by `Rule.read` itself (`Rule.read_eq`), so no budget is left in the statements but
for the counters of the loops.

- `Rule.Stops signs ts`: ahead is a token whose tag is none of `signs`;
- `nextIs_*`, `skip_*`, `demand_*`: single tokens;
- `leftward_*`, `calls_*`, `more*_*`: one turn of a loop, and its end;
- `read_*`: the alternatives.
-/

namespace Stepwise

open Token (headTag Is Bears)

namespace Rule

@[simp] theorem ok_bind {α β : Type} (a : α) (f : α → Except Fault β) :
    (Except.ok a >>= f) = f a := rfl

@[simp] theorem pure_eq_ok {α : Type} (a : α) : (pure a : Except Fault α) = .ok a := rfl

@[simp] theorem numberTag_returns : Stage.numberTag .returns = "<number>" := rfl

@[simp] theorem booleanTag_returns : Stage.booleanTag .returns = "<boolean>" := rfl

@[simp] theorem nameTag_returns : Stage.nameTag .returns = "<identifier>" := rfl

/-- The last stage has everything. -/
@[simp] theorem has_returns (feature : Stage) : Stage.has .returns feature = true := by
  cases feature <;> rfl

/-! ## Single tokens -/

variable {st : Stage} {t t' : Token} {tag : String} {ts rest : List Token}

theorem headTag_of_is (h : Is tag t) : headTag (t :: ts) = .ok (.text tag) := h

theorem nextIs_of_headTag {v : Value} (h : headTag ts = .ok v) (tag : String) :
    nextIs tag ts = .ok (v.isText tag) := by
  simp [nextIs, h]

theorem nextIs_of_is (h : Is tag t) : nextIs tag (t :: ts) = .ok true := by
  simp [nextIs, headTag_of_is h, Value.isText]

theorem nextIs_of_is_ne {tag' : String} (h : Is tag' t) (hne : tag' ≠ tag) :
    nextIs tag (t :: ts) = .ok false := by
  simp [nextIs, headTag_of_is h, Value.isText, hne]

theorem skip_of_is (h : Is tag t) : skip tag (t :: ts) = .ok ts := by
  simp [skip, nextIs_of_is h]

theorem demand_of_is (h : Is tag t) (what : String) : demand tag what (t :: ts) = .ok ts := by
  simp [demand, nextIs_of_is h]

/-- Ahead is a token with a tag, and the tag is none of these. -/
def Stops (signs : List String) (ts : List Token) : Prop :=
  ∃ v, headTag ts = .ok v ∧ ∀ tag ∈ signs, v ≠ .text tag

namespace Stops

/-- The end stops everything. -/
theorem ending (signs : List String) : Stops signs [Token.ending] :=
  ⟨.null, rfl, nofun⟩

variable {signs signs' : List String}

theorem of_is (h : Is tag t) (htag : tag ∉ signs) : Stops signs (t :: ts) := by
  refine ⟨.text tag, h, fun tag' htag' heq => htag ?_⟩
  rwa [Value.text.inj heq]

theorem mono (h : Stops signs ts) (hsub : signs' ⊆ signs) : Stops signs' ts := by
  obtain ⟨v, hv, hne⟩ := h
  exact ⟨v, hv, fun tag htag => hne tag (hsub htag)⟩

/-- Where reading stops, none of the signs comes next. -/
theorem nextIs (h : Stops signs ts) (htag : tag ∈ signs) : Rule.nextIs tag ts = .ok false := by
  obtain ⟨v, hv, hne⟩ := h
  rw [nextIs_of_headTag hv]
  have hsign : v.isText tag ≠ true := fun heq => hne tag htag (Value.eq_text_of_isText heq)
  rw [Bool.eq_false_iff.2 hsign]

end Stops

/-- Ahead is one of these tags, or none of them, or nothing that has a tag. -/
theorem stops_or_headTag (tags : List String) (ts : List Token) :
    Stops tags ts ∨ (∃ tag ∈ tags, headTag ts = .ok (.text tag)) ∨ ∃ e, headTag ts = .error e := by
  cases hv : headTag ts with
  | error e => exact .inr (.inr ⟨e, rfl⟩)
  | ok v =>
    by_cases h : ∃ tag ∈ tags, v = .text tag
    · obtain ⟨tag, htag, rfl⟩ := h
      exact .inr (.inl ⟨tag, htag, rfl⟩)
    · exact .inl ⟨v, hv, fun tag htag heq => h ⟨tag, htag, heq⟩⟩

/-- Semicolons are skipped up to a token that is none. -/
theorem skipSemicolons_of_spans {n : Nat} (h : Spans ts (List.replicate n (.sign ";")) rest)
    (hrest : Stops [";"] rest) : skipSemicolons ts = .ok rest := by
  induction n generalizing ts with
  | zero =>
    -- no semicolon is left: the token at hand ends the search
    have hts : ts = rest := h
    subst hts
    cases ts with
    | nil => obtain ⟨v, hv, -⟩ := hrest; cases hv
    | cons t ts =>
      obtain ⟨v, hv, hne⟩ := hrest
      have hsign : v.isText ";" ≠ true := fun heq => hne ";" (by simp) (Value.eq_text_of_isText heq)
      have htag : t.field "tag" = .ok v := hv
      simp [skipSemicolons, htag, hsign]
  | succ n ih =>
    obtain ⟨t, ts, rfl, ht, hts⟩ := h
    have htag : t.field "tag" = .ok (.text ";") := ht
    simp [skipSemicolons, htag, Value.isText, ih hts]

/-! ## Expressions -/

theorem read_number {v : Value} (h : Bears t (.number v)) :
    simple.read .returns (t :: ts) = .ok (Tree.leaf .returns "<number>" v, ts) := by
  rw [read_eq]
  simp [step, readSimple, headTag_of_is h.1, Value.isText, readLeaf, headValue, h.2]

theorem read_boolean {v : Value} (h : Bears t (.boolean v)) :
    simple.read .returns (t :: ts) = .ok (Tree.leaf .returns "<boolean>" v, ts) := by
  rw [read_eq]
  simp [step, readSimple, headTag_of_is h.1, Value.isText, readLeaf, headValue, h.2]

theorem read_name {v : Value} (h : Bears t (.name v)) :
    simple.read .returns (t :: ts) = .ok (Tree.leaf .returns "<identifier>" v, ts) := by
  rw [read_eq]
  simp [step, readSimple, headTag_of_is h.1, Value.isText, readLeaf, headValue, h.2]

/-- An expression in parentheses leaves no trace of them. -/
theorem read_parenthesized {e : Tree} (h : Is "(" t) (h' : Is ")" t')
    (he : expression.read .returns ts = .ok (e, t' :: rest)) :
    simple.read .returns (t :: ts) = .ok (e, rest) := by
  rw [read_eq]
  simp [step, readSimple, headTag_of_is h, Value.isText, parenthesized, he, nextIs_of_is h']

/-- A minus negates what a simple expression can hold, so not a call. -/
theorem read_negated {e : Tree} (h : Is "-" t) (he : simple.read .returns ts = .ok (e, rest)) :
    simple.read .returns (t :: ts) = .ok (Tree.unary .returns "negate" e, rest) := by
  rw [read_eq]
  simp [step, readSimple, headTag_of_is h, Value.isText, negated, he]

theorem read_function (h : Is "function" t) :
    simple.read .returns (t :: ts) = functionLiteral.read .returns (t :: ts) := by
  rw [read_eq]
  simp [step, readSimple, headTag_of_is h, Value.isText]

/-- A callable expression is a simple one, then its argument lists. -/
theorem read_callable {e : Tree} (he : simple.read .returns ts = .ok (e, rest)) :
    callable.read .returns ts =
      calls .returns (Rule.read .returns) (budget ts.length) e rest := by
  rw [read_eq]
  simp [step, he]

theorem calls_called {f es : Tree} (n : Nat) (h : Is "(" t)
    (hes : expressionList.read .returns (t :: ts) = .ok (es, rest)) :
    calls .returns (Rule.read .returns) (n + 1) f (t :: ts) =
      calls .returns (Rule.read .returns) n (Tree.call .returns f es) rest := by
  rw [calls]
  simp [nextIs_of_is h, hes]

theorem calls_end {f : Tree} (n : Nat) (h : Stops ["("] ts) :
    calls .returns (Rule.read .returns) (n + 1) f ts = .ok (f, ts) := by
  rw [calls]
  simp [h.nextIs (List.mem_singleton_self _)]

theorem read_factor (ts : List Token) : factor.read .returns ts = callable.read .returns ts := by
  rw [read_eq]
  simp only [step, readFactor]

theorem step_level {st : Stage} {rule : Rule → List Token → Reading} {r operand : Rule}
    {tags : List String} (h : r.level? = some (operand, tags)) (n : Nat) (ts : List Token) :
    step st rule n r ts = readLeftward st rule n operand tags ts := by
  cases r <;> cases h <;> rfl

/-- A rule with operators starts with an operand. -/
theorem read_level {r operand : Rule} {signs : List String} {left : Tree}
    (hr : r.level? = some (operand, signs)) (hleft : operand.read st ts = .ok (left, rest)) :
    r.read st ts =
      leftward st (Rule.read st) operand signs (budget ts.length) left rest := by
  rw [read_eq, step_level hr]
  simp [readLeftward, hleft]

theorem leftward_operator {operand : Rule} {signs : List String} {left right : Tree} (n : Nat)
    (h : Is tag t) (htag : tag ∈ signs) (hright : operand.read st ts = .ok (right, rest)) :
    leftward st (Rule.read st) operand signs (n + 1) left (t :: ts) =
      leftward st (Rule.read st) operand signs n
        (Tree.binary st tag left right) rest := by
  rw [leftward]
  simp [headTag_of_is h, htag, hright]

/-- At another token the operators of a level are over. -/
theorem leftward_end {rule : Rule → List Token → Reading} {operand : Rule} {signs : List String}
    {left : Tree} (n : Nat) (h : Stops signs ts) :
    leftward st rule operand signs (n + 1) left ts = .ok (left, ts) := by
  obtain ⟨v, hv, hne⟩ := h
  rw [leftward]
  cases v with
  | text tag =>
    have htag : tag ∉ signs := fun hmem => hne tag hmem rfl
    simp [hv, htag]
  | null | bool | int | float | list | record => simp [hv]

/-- Without `!` a negation is a comparison. -/
theorem read_plain (h : Stops ["!"] ts) :
    negation.read st ts = comparison.read st ts := by
  rw [read_eq]
  simp [step, readNegation, h.nextIs (List.mem_singleton_self _)]

theorem read_not {e : Tree} (h : Is "!" t) (he : negation.read st ts = .ok (e, rest)) :
    negation.read st (t :: ts) = .ok (Tree.unary st "not" e, rest) := by
  rw [read_eq]
  simp [step, readNegation, nextIs_of_is h, he]

theorem read_expression (ts : List Token) :
    expression.read .returns ts = disjunction.read .returns ts := by
  rw [read_eq]
  simp [step]

theorem read_literal {xs body : Tree} {mid : List Token} (h : Is "function" t)
    (hxs : nameList.read st ts = .ok (xs, mid))
    (hbody : blockStatement.read st mid = .ok (body, rest)) :
    functionLiteral.read st (t :: ts) = .ok (Tree.function xs body, rest) := by
  rw [read_eq]
  simp [step, readFunction, skip_of_is h, hxs, hbody]

/-! ## Lists -/

theorem parameter_of_bears {v : Value} (h : Bears t (.name v)) :
    parameter .returns (t :: ts) = .ok (Tree.leaf .returns "<identifier>" v, ts) := by
  simp [parameter, nextIs_of_is h.1, headValue, h.2]

theorem moreParameters_name {x : Tree} {xs : List Tree} {mid : List Token} (n : Nat)
    (h : Is "," t) (hx : parameter .returns ts = .ok (x, mid))
    (hxs : moreParameters .returns n mid = .ok (xs, rest)) :
    moreParameters .returns (n + 1) (t :: ts) = .ok (x :: xs, rest) := by
  simp [moreParameters, nextIs_of_is h, hx, hxs]

theorem moreParameters_end (n : Nat) (h : Stops [","] ts) :
    moreParameters .returns (n + 1) ts = .ok ([], ts) := by
  simp [moreParameters, h.nextIs (List.mem_singleton_self _)]

theorem read_noNames (h : Is "(" t) (h' : Is ")" t') :
    nameList.read .returns (t :: t' :: ts) = .ok (.null, ts) := by
  rw [read_eq]
  simp [step, readNameList, skip_of_is h, nextIs_of_is h', Tree.chain]

/-- A list of parameters. -/
theorem read_names {x : Tree} {xs : List Tree} {mid : List Token} (h : Is "(" t)
    (hstart : Stops [")"] ts) (hx : parameter .returns ts = .ok (x, mid))
    (hxs : moreParameters .returns (budget (ts.length + 1)) mid = .ok (xs, t' :: rest))
    (h' : Is ")" t') :
    nameList.read .returns (t :: ts) = .ok (Tree.chain (x :: xs), rest) := by
  rw [read_eq]
  simp [step, readNameList, skip_of_is h, hstart.nextIs (List.mem_singleton_self _), hx, hxs,
    skip_of_is h']

theorem moreExpressions_expression {e : Tree} {es : List Tree} {mid : List Token} (n : Nat)
    (h : Is "," t) (he : expression.read .returns ts = .ok (e, mid))
    (hes : moreExpressions (Rule.read .returns) n mid = .ok (es, rest)) :
    moreExpressions (Rule.read .returns) (n + 1) (t :: ts) = .ok (e :: es, rest) := by
  simp [moreExpressions, nextIs_of_is h, he, hes]

theorem moreExpressions_end (n : Nat) (h : Stops [","] ts) :
    moreExpressions (Rule.read .returns) (n + 1) ts = .ok ([], ts) := by
  simp [moreExpressions, h.nextIs (List.mem_singleton_self _)]

theorem read_noExpressions (h : Is "(" t) (h' : Is ")" t') :
    expressionList.read .returns (t :: t' :: ts) = .ok (.null, ts) := by
  rw [read_eq]
  simp [step, readExpressionList, skip_of_is h, nextIs_of_is h', Tree.chain]

/-- A list of expressions. -/
theorem read_expressions {e : Tree} {es : List Tree} {mid : List Token} (h : Is "(" t)
    (hstart : Stops [")"] ts) (he : expression.read .returns ts = .ok (e, mid))
    (hes : moreExpressions (Rule.read .returns) (budget (ts.length + 1)) mid =
      .ok (es, t' :: rest)) (h' : Is ")" t') :
    expressionList.read .returns (t :: ts) = .ok (Tree.chain (e :: es), rest) := by
  rw [read_eq]
  simp [step, readExpressionList, skip_of_is h, hstart.nextIs (List.mem_singleton_self _), he, hes,
    skip_of_is h']

/-! ## Statements -/

theorem read_assignment {v : Value} {e : Tree} (h : Bears t (.name v)) (h' : Is "=" t')
    (he : expression.read .returns ts = .ok (e, rest)) :
    assignment.read .returns (t :: t' :: ts) =
      .ok (Tree.assign .returns (Tree.leaf .returns "<identifier>" v) e, rest) := by
  rw [read_eq]
  simp [step, readAssignment, nextIs_of_is h.1, headValue, h.2, demand_of_is h', he]

/-- A function statement is read as an assignment, with a sign at the place of the keyword. -/
theorem read_functionStatement_eq {position : Value} (h : Is "function" t)
    (hposition : t.field "position" = .ok position) (h' : Is st.nameTag t') :
    functionStatement.read st (t :: t' :: ts) = assignment.read st
      (t' :: .record [("tag", .text "="), ("position", position)] :: t :: ts) := by
  rw [read_eq]
  simp [step, readFunctionStatement, skip_of_is h, skip_of_is h', hposition]

/-- A function statement is an assignment of the literal that starts at the same keyword. -/
theorem read_functionStatement {v : Value} {e : Tree} (h : Bears t .define)
    (h' : Bears t' (.defined v)) (he : expression.read .returns (t :: ts) = .ok (e, rest)) :
    functionStatement.read .returns (t :: t' :: ts) =
      .ok (Tree.assign .returns (Tree.leaf .returns "<identifier>" v) e, rest) := by
  obtain ⟨htag, position, hposition⟩ := h
  have hsign : Is "=" (.record [("tag", .text "="), ("position", position)]) := rfl
  have hname : Is (Stage.nameTag .returns) t' := h'.1
  exact (read_functionStatement_eq htag hposition hname).trans (read_assignment h' hsign he)

theorem read_condition {c : Tree} (closing : String) (h : Is "(" t) (h' : Is ")" t')
    (hc : expression.read st ts = .ok (c, t' :: rest)) :
    readCondition (Rule.read st) closing (t :: ts) = .ok (c, rest) := by
  simp [readCondition, demand_of_is h, hc, demand_of_is h']

theorem read_ifThen (hst : st.has .blocks = true) {c s : Tree} {mid : List Token} (h : Is "if" t)
    (hc : ∀ closing, readCondition (Rule.read st) closing ts = .ok (c, mid))
    (hs : statement.read st mid = .ok (s, rest)) (hrest : Stops ["else"] rest) :
    ifStatement.read st (t :: ts) = .ok (Tree.branch st c s none, rest) := by
  rw [read_eq]
  simp [step, readIf, skip_of_is h, hc, hs, hst, hrest.nextIs (List.mem_singleton_self _)]

theorem read_ifElse (hst : st.has .blocks = true) {c s a : Tree} {mid mid' : List Token}
    (h : Is "if" t)
    (hc : ∀ closing, readCondition (Rule.read st) closing ts = .ok (c, mid))
    (hs : statement.read st mid = .ok (s, t' :: mid')) (h' : Is "else" t')
    (ha : statement.read st mid' = .ok (a, rest)) :
    ifStatement.read st (t :: ts) = .ok (Tree.branch st c s (some a), rest) := by
  rw [read_eq]
  simp [step, readIf, skip_of_is h, hc, hs, hst, nextIs_of_is h', ha]

theorem read_while {c s : Tree} {mid : List Token} (h : Is "while" t)
    (hc : ∀ closing, readCondition (Rule.read .returns) closing ts = .ok (c, mid))
    (hs : statement.read .returns mid = .ok (s, rest)) :
    whileStatement.read .returns (t :: ts) = .ok (Tree.loop .returns c s, rest) := by
  rw [read_eq]
  simp [step, readWhile, skip_of_is h, hc, hs]

/-- A return with nothing to give back. -/
theorem read_giveBack {v : Value} (h : Is "return" t) (hv : headTag ts = .ok v)
    (hmem : v ∈ [.text "\x7d", .text ";", .null]) :
    returnStatement.read st (t :: ts) = .ok (Tree.giveBack none, ts) := by
  rw [read_eq]
  simp only [List.mem_cons, List.not_mem_nil, or_false] at hmem
  rcases hmem with rfl | rfl | rfl <;>
    simp [step, readReturn, skip_of_is h, hv, Value.isText, Value.isNull]

/-- A return with an expression. It starts with no token that ends a statement. -/
theorem read_giveBackValue {e : Tree} (h : Is "return" t) (hstart : Is tag t')
    (htag : tag ∉ ["\x7d", ";"]) (he : expression.read st (t' :: ts) = .ok (e, rest)) :
    returnStatement.read st (t :: t' :: ts) = .ok (Tree.giveBack (some e), rest) := by
  rw [read_eq]
  simp only [List.mem_cons, List.not_mem_nil, or_false, not_or] at htag
  simp [step, readReturn, skip_of_is h, headTag_of_is hstart, Value.isText, Value.isNull, htag, he]

theorem read_print {es : Tree} (h : Is "print" t)
    (hes : expressionList.read .returns ts = .ok (es, rest)) :
    printStatement.read .returns (t :: ts) = .ok (Tree.output es, rest) := by
  rw [read_eq]
  simp [step, readPrint, skip_of_is h, hes]

/-- Behind the last statement stand semicolons and the brace. -/
theorem moreStatements_end {k n : Nat} (h : Spans ts (List.replicate k (.sign ";")) (t :: rest))
    (ht : Is "\x7d" t) :
    moreStatements (Rule.read .returns) (n + 2) ts = .ok ([], t :: rest) := by
  -- at the brace no more statements are read
  have hend : moreStatements (Rule.read .returns) (n + 1) (t :: rest) = .ok ([], t :: rest) := by
    simp [moreStatements, nextIs_of_is_ne ht]
  cases k with
  | zero =>
    have hts : ts = t :: rest := h
    subst hts
    simp [moreStatements, nextIs_of_is_ne ht]
  | succ k =>
    have hskip := skipSemicolons_of_spans h (.of_is ht (by decide))
    -- the first semicolon announces a statement, and the brace behind them takes it back
    obtain ⟨t', ts', rfl, ht', -⟩ := h
    rw [moreStatements]
    simp [nextIs_of_is ht', hskip, nextIs_of_is ht, hend]

/-- A further statement, with at least one semicolon in front of it. -/
theorem moreStatements_statement {k : Nat} {s : Tree} {more : List Tree} {mid mid' : List Token}
    (n : Nat) (h : Spans ts (List.replicate (k + 1) (.sign ";")) mid)
    (hstart : Stops [";", "\x7d"] mid) (hs : statement.read .returns mid = .ok (s, mid'))
    (htag : tag ∈ [";", "\x7d"]) (hend : headTag mid' = .ok (.text tag))
    (hmore : moreStatements (Rule.read .returns) n mid' = .ok (more, rest)) :
    moreStatements (Rule.read .returns) (n + 1) ts = .ok (s :: more, rest) := by
  have hskip := skipSemicolons_of_spans h (hstart.mono (by simp))
  have hnext := nextIs_of_headTag hend
  obtain ⟨t, ts, rfl, ht, -⟩ := h
  rw [moreStatements]
  simp only [List.mem_cons, List.not_mem_nil, or_false] at htag
  rcases htag with rfl | rfl
  · simp [nextIs_of_is ht, hskip, hstart.nextIs, hs, hnext, Value.isText, hmore]
  · simp [nextIs_of_is ht, hskip, hstart.nextIs, hs, hnext, Value.isText, hmore]

/-- A block with semicolons only. -/
theorem read_emptyBlock {k : Nat} (h : Is "\x7b" t)
    (hsigns : Spans ts (List.replicate k (.sign ";")) (t' :: rest)) (h' : Is "\x7d" t') :
    blockStatement.read .returns (t :: ts) = .ok (Tree.block [], rest) := by
  have hskip := skipSemicolons_of_spans hsigns (.of_is h' (by decide))
  rw [read_eq]
  simp [step, readBlock, skip_of_is h, hskip, nextIs_of_is h']

/-- A block with a first statement, and what follows it. -/
theorem read_block {k : Nat} {s : Tree} {more : List Tree} {mid mid' : List Token}
    (h : Is "\x7b" t) (hsigns : Spans ts (List.replicate k (.sign ";")) mid)
    (hstart : Stops [";", "\x7d"] mid) (hs : statement.read .returns mid = .ok (s, mid'))
    (hmore : moreStatements (Rule.read .returns) (budget (ts.length + 1)) mid' =
      .ok (more, t' :: rest)) (h' : Is "\x7d" t') :
    blockStatement.read .returns (t :: ts) = .ok (Tree.block (s :: more), rest) := by
  have hskip := skipSemicolons_of_spans hsigns (hstart.mono (by simp))
  rw [read_eq]
  simp [step, readBlock, skip_of_is h, hskip, hstart.nextIs, hs, hmore, skip_of_is h']

/-- The statements that their first word announces. -/
theorem read_statement_keyword (hst : st.has .functions = true) {r : Rule} (h : Is tag t)
    (htag : (tag, r) ∈ [("if", ifStatement), ("while", whileStatement),
      ("return", returnStatement), ("print", printStatement), ("\x7b", blockStatement)]) :
    statement.read st (t :: ts) = r.read st (t :: ts) := by
  have hconditions : st.has .conditions = true := Stage.has_of_rank_le hst (by decide)
  have hblocks : st.has .blocks = true := Stage.has_of_rank_le hst (by decide)
  rw [read_eq]
  simp only [List.mem_cons, List.not_mem_nil, or_false, Prod.mk.injEq] at htag
  rcases htag with ⟨rfl, rfl⟩ | ⟨rfl, rfl⟩ | ⟨rfl, rfl⟩ | ⟨rfl, rfl⟩ | ⟨rfl, rfl⟩ <;>
    simp [step, readStatement, headTag_of_is h, Value.isText, hst, hconditions, hblocks]

theorem read_statement_function (h : Is "function" t) (h' : Is "<identifier>" t') :
    statement.read .returns (t :: t' :: ts) = functionStatement.read .returns (t :: t' :: ts) := by
  rw [read_eq]
  simp [step, readStatement, headTag_of_is h, Value.isText, nextIs_of_is h']

theorem read_statement_assignment (h : Is "<identifier>" t) (h' : Is "=" t') :
    statement.read .returns (t :: t' :: ts) = assignment.read .returns (t :: t' :: ts) := by
  rw [read_eq]
  simp [step, readStatement, headTag_of_is h, Value.isText, nextIs_of_is h']

/-- Everything else is an expression. One that starts with a name goes on with no `=`, and one
that starts with a function goes on with no name. -/
theorem read_statement_expression (h : Is tag t)
    (htag : tag ∉ ["if", "while", "return", "print", "\x7b"])
    (hfunction : tag = "function" → Stops ["<identifier>"] ts)
    (hname : tag = "<identifier>" → Stops ["="] ts) :
    statement.read .returns (t :: ts) = expression.read .returns (t :: ts) := by
  rw [read_eq]
  simp only [List.mem_cons, List.not_mem_nil, or_false, not_or] at htag
  by_cases hf : tag = "function"
  · subst hf
    simp [step, readStatement, headTag_of_is h, Value.isText,
      (hfunction rfl).nextIs (List.mem_singleton_self _)]
  · by_cases hx : tag = "<identifier>"
    · subst hx
      simp [step, readStatement, headTag_of_is h, Value.isText,
        (hname rfl).nextIs (List.mem_singleton_self _)]
    · simp [step, readStatement, headTag_of_is h, Value.isText, htag, hf, hx]

end Rule

end Stepwise
