import Stepwise.Proofs.Braces
import Stepwise.Proofs.Parentheses

/-!
# Function statements

By the grammar a function statement is a definition: the keyword, a name, a list of parameters and
a body. The parser reads it as an assignment of the expression that starts with the function, and
this expression need not end with the body: an operator behind the closing brace, and at `returns`
a list of arguments as well, makes a longer one of it (`function_statement_goes_on`).

- `Tree.continued`: an expression with lists of arguments and operators behind it;
- `Rule.Continued`: how an expression goes on behind a first part of it, if it does. This is said of
  the loops of the parser (`calls_continued`, `leftward_continued`), and put together for all levels
  of operators (`expression_led`);
- `Rule.Defines`: the tokens of a definition.
-/

namespace Stepwise

open Token (headTag Is)

/-- What makes a longer expression of the one before it: a list of arguments, or an operator with
its right operand. -/
inductive Continuation where
  | call (arguments : Tree)
  | binary (op : Operator) (right : Tree)

namespace Tree

variable {st : Stage}

/-- The expression with a continuation behind it. -/
def extended (st : Stage) (t : Tree) : Continuation → Tree
  | .call arguments => call st t arguments
  | .binary op right => binary st op.sign t right

/-- The expression with one continuation after the other behind it. -/
def continued (st : Stage) (t : Tree) (cs : List Continuation) : Tree :=
  cs.foldl (extended st) t

theorem continued_append (t : Tree) (cs cs' : List Continuation) :
    (t.continued st cs).continued st cs' = t.continued st (cs ++ cs') :=
  (List.foldl_append ..).symm

/-- A function with something behind it is no function. -/
theorem field_tag_extended (st : Stage) (t : Tree) (c : Continuation) :
    ∃ tag ≠ "function", (t.extended st c).field "tag" = .ok (.text tag) := by
  cases c with
  | call arguments => exact ⟨"<function_call>", by decide, rfl⟩
  | binary op right =>
    refine ⟨op.sign, by cases op <;> decide, ?_⟩
    rw [extended, binary]
    split <;> rfl

/-- An expression that goes on is no function. -/
theorem continued_ne_function {cs : List Continuation} (hcs : cs ≠ [])
    (t parameters body : Tree) : t.continued st cs ≠ function parameters body := by
  obtain rfl | ⟨before, c, rfl⟩ := List.eq_nil_or_concat' cs
  · exact absurd rfl hcs
  · rw [continued, List.foldl_concat]
    obtain ⟨tag, htag, hfield⟩ := field_tag_extended st (before.foldl (extended st) t) c
    exact ne_of_tag hfield rfl htag

end Tree

namespace Rule

variable {st : Stage} {ts mid rest : List Token} {f t : Tree} {signs signs' : List String}

/-! ## Expressions that go on -/

/-- One of these tags comes next. -/
def Ahead (signs : List String) (ts : List Token) : Prop :=
  ∃ tag ∈ signs, headTag ts = .ok (.text tag)

theorem Stops.not_ahead (h : Stops signs ts) : ¬ Ahead signs ts := by
  rintro ⟨tag, htag, hhead⟩
  obtain ⟨v, hv, hne⟩ := h
  exact hne tag htag (Except.ok.inj (hv.symm.trans hhead))

theorem ahead_append : Ahead (signs ++ signs') ts ↔ Ahead signs ts ∨ Ahead signs' ts := by
  simp only [Ahead, List.mem_append, or_and_right, exists_or]

theorem Past.further {behind : List Token} (h : Past 1 ts behind) (h' : Past 1 behind rest) :
    Past 1 ts rest :=
  (h.trans h').mono (Nat.le_add_left 1 1)

/-- An expression starts with `f`, and behind `f` stands `mid`. If none of the signs comes next, the
expression is over. If one does, the expression goes on and leaves less behind. -/
inductive Continued (st : Stage) (signs : List String) (f : Tree) (mid : List Token) :
    Tree → List Token → Prop
  | ended (h : ¬ Ahead signs mid) : Continued st signs f mid f mid
  | longer {cs : List Continuation} {rest : List Token} (h : Ahead signs mid) (hcs : cs ≠ [])
      (hrest : Past 1 mid rest) : Continued st signs f mid (f.continued st cs) rest

namespace Continued

/-- An expression that goes on once, and whatever it does then. -/
theorem step {c : Continuation} {behind : List Token} (h : Ahead signs mid)
    (hbehind : Past 1 mid behind) (hnext : Continued st signs (f.extended st c) behind t rest) :
    Continued st signs f mid t rest := by
  cases hnext with
  | ended =>
    show Continued st signs f mid (f.continued st [c]) rest
    exact .longer h (List.cons_ne_nil _ _) hbehind
  | @longer cs _ _ _ hrest =>
    show Continued st signs f mid (f.continued st (c :: cs)) rest
    exact .longer h (List.cons_ne_nil _ _) (hbehind.further hrest)

/-- What has gone on with some signs goes on with others. -/
theorem trans {e : Tree} {behind : List Token} (h : Continued st signs f mid e behind)
    (h' : Continued st signs' e behind t rest) : Continued st (signs ++ signs') f mid t rest := by
  cases h with
  | ended hnot =>
    cases h' with
    | ended hnot' => exact .ended (by rw [ahead_append]; exact not_or.2 ⟨hnot, hnot'⟩)
    | longer hahead hcs hrest => exact .longer (ahead_append.2 (.inr hahead)) hcs hrest
  | longer hahead hcs hbehind =>
    have hahead' := ahead_append.2 (Or.inl (b := Ahead signs' mid) hahead)
    cases h' with
    | ended => exact .longer hahead' hcs hbehind
    | longer _ hcs' hrest =>
      rw [Tree.continued_append]
      exact .longer hahead' (by simp [hcs]) (hbehind.further hrest)

end Continued

/-- What a chain of operators makes of its first operand: it goes on if an operator is ahead. -/
theorem leftward_continued {operand : Rule}
    (hsigns : ∀ tag ∈ signs, ∃ op : Operator, op.sign = tag) :
    ∀ (n : Nat) {left : Tree} {ts : List Token},
      leftward st (Rule.read st) operand signs n left ts = .ok (t, rest) →
      Continued st signs left ts t rest
  | 0, _, _, h => by cases h
  | n + 1, left, ts, h => by
    rcases leftward_inv h with
      ⟨hstops, heq⟩ | ⟨tag, sign, more, right, behind, rfl, hsign, htag, hright, hnext⟩
    · cases heq
      exact .ended hstops.not_ahead
    · obtain ⟨op, rfl⟩ := hsigns tag htag
      have hbehind : Past 1 (sign :: more) behind :=
        (Past.drop_one (List.cons_ne_nil _ _)).further (read_past hright)
      have hcontinued : Continued st signs (left.extended st (.binary op right)) behind t rest :=
        leftward_continued hsigns n hnext
      exact .step ⟨_, htag, hsign⟩ hbehind hcontinued

/-- What the loop of calls makes of its callee: it goes on if a parenthesis is ahead. -/
theorem calls_continued : ∀ (n : Nat) {f : Tree} {mid : List Token},
    calls st (Rule.read st) n f mid = .ok (t, rest) → Continued st ["("] f mid t rest
  | 0, _, _, h => by cases h
  | n + 1, f, mid, h => by
    rw [calls] at h
    cases hnext : nextIs "(" mid with
    | error e => rw [hnext] at h; cases h
    | ok opens =>
      rw [hnext] at h
      cases opens with
      | false =>
        cases h
        -- no parenthesis, so that the callee is all of it
        refine .ended ?_
        rintro ⟨tag, htag, hhead⟩
        obtain rfl := List.mem_singleton.1 htag
        simp [nextIs_of_headTag hhead, Value.isText] at hnext
      | true =>
        cases hlist : expressionList.read st mid with
        | error e => simp [hlist] at h; cases h
        | ok p =>
          simp only [hlist, ok_bind, if_true] at h
          -- one list of arguments is a step, and the other lists are the induction hypothesis
          have hcontinued : Continued st ["("] (f.extended st (.call p.1)) p.2 t rest :=
            calls_continued n h
          exact .step ⟨"(", by simp, headTag_of_nextIs hnext rfl⟩ (read_past hlist) hcontinued

/-! ## Expressions that start with a function -/

/-- What the rule reads is a function, and what goes on behind it with these signs. -/
def Led (st : Stage) (ts : List Token) (r : Rule) (signs : List String) : Prop :=
  ∀ t rest, r.read st ts = .ok (t, rest) →
    ∃ f mid, functionLiteral.read st ts = .ok (f, mid) ∧ Continued st signs f mid t rest

/-- From an operand to its level: the operators of the level are among those that go on. -/
theorem Led.level {r operand : Rule} (hr : r.level? = some (operand, signs'))
    (h : Led st ts operand signs) : Led st ts r (signs ++ signs') := by
  intro t rest hread
  cases hleft : operand.read st ts with
  | error e =>
    rw [read_level_error hr hleft] at hread
    cases hread
  | ok q =>
    obtain ⟨f, mid, hf, hcontinued⟩ := h q.1 q.2 hleft
    rw [read_level hr hleft] at hread
    obtain ⟨-, -, -, -, hsigns⟩ := level_formulas hr
    exact ⟨f, mid, hf, hcontinued.trans (leftward_continued hsigns _ hread)⟩

/-- Without a sign before it a negation is a comparison. -/
theorem Led.negation (hts : Stops ["!"] ts) (h : Led st ts comparison signs) :
    Led st ts negation signs := by
  intro t rest hread
  rw [read_plain hts] at hread
  exact h t rest hread

theorem Led.expression (hst : st.has .booleans = true) (h : Led st ts disjunction signs) :
    Led st ts expression signs := by
  intro t rest hread
  rw [read_disjunction hst] at hread
  exact h t rest hread

/-- Only which signs there are matters, not their order. -/
theorem Led.congr {r : Rule} (h : Led st ts r signs) (hsigns : ∀ tag, tag ∈ signs ↔ tag ∈ signs') :
    Led st ts r signs' := by
  have hahead : Ahead signs = Ahead signs' := by
    funext ts
    simp only [Ahead, hsigns]
  intro t rest hread
  obtain ⟨f, mid, hf, hcontinued⟩ := h t rest hread
  refine ⟨f, mid, hf, ?_⟩
  cases hcontinued with
  | ended hnot => exact .ended (hahead ▸ hnot)
  | longer hnext hcs hrest => exact .longer (hahead ▸ hnext) hcs hrest

/-- The signs with which an expression that starts with a function goes on. -/
def continuers (st : Stage) : List String :=
  (if st.has .returns then ["("] else []) ++ operators

section Keyword

variable {keyword : Token} (hst : st.has .functions = true) (hkeyword : Is "function" keyword)
include hst hkeyword

/-- A factor that starts with the keyword is a function, which can be called at `returns`. -/
theorem read_factor_function (ts : List Token) :
    factor.read st (keyword :: ts) = (do
      let p ← functionLiteral.read st (keyword :: ts)
      if st.has .returns then calls st (Rule.read st) (budget (keyword :: ts).length) p.1 p.2
      else return p) := by
  cases st with
  | returns =>
    rw [read_factor, read_eq]
    simp only [step, read_function hkeyword]
    rfl
  | functions =>
    have hsimple : readSimple .functions (Rule.read .functions) .factor (keyword :: ts) =
        functionLiteral.read .functions (keyword :: ts) := by
      simp [readSimple, headTag_of_is hkeyword, Value.isText, hst,
        sign_ne_literalTags .functions (show "function" ∈ Rule.signs by decide)]
    rw [read_factor_of_sign rfl hkeyword (by decide), hsimple]
    exact (bind_pure _).symm
  | expressions | assignments | booleans | conditions | blocks | scopes => cases hst

/-- A factor that starts with a function goes on with calls alone, and only at `returns`. -/
theorem factor_led (ts : List Token) :
    Led st (keyword :: ts) factor (if st.has .returns then ["("] else []) := by
  intro t rest hread
  rw [read_factor_function hst hkeyword] at hread
  cases hf : functionLiteral.read st (keyword :: ts) with
  | error e => rw [hf] at hread; cases hread
  | ok p =>
    refine ⟨p.1, p.2, rfl, ?_⟩
    rw [hf, ok_bind] at hread
    cases hreturns : st.has .returns with
    | true =>
      rw [hreturns, if_pos rfl] at hread
      exact calls_continued _ hread
    | false =>
      rw [hreturns] at hread
      cases hread
      refine .ended ?_
      rintro ⟨tag, htag, -⟩
      cases htag

/-- **An expression that starts with a function goes on with calls and operators**, level by
level. -/
theorem expression_led (ts : List Token) : Led st (keyword :: ts) expression (continuers st) := by
  have hcomparison : Led st (keyword :: ts) comparison _ :=
    .level rfl (.level (r := sum) rfl (.level (r := product) rfl (factor_led hst hkeyword ts)))
  have hnegation := hcomparison.negation (.of_is hkeyword (by decide))
  have hdisjunction := (hnegation.level (r := conjunction) rfl).level (r := disjunction) rfl
  have hexpression := hdisjunction.expression (Stage.has_of_rank_le hst (by decide))
  refine hexpression.congr fun tag => ?_
  have hoperators : (["*", "/"] ++ (["+", "-"] ++ (["<", ">", "<=", ">=", "==", "!="] ++
      (["&&"] ++ ["||"])))).Perm operators := by decide
  rw [List.append_assoc, List.append_assoc, List.append_assoc, List.append_assoc, continuers]
  exact (hoperators.append_left _).mem_iff

/-- A function is all of the expression, if none of the signs follows. -/
theorem expression_of_literal (hf : functionLiteral.read st (keyword :: ts) = .ok (f, mid))
    (hmid : Stops (continuers st) mid) : expression.read st (keyword :: ts) = .ok (f, mid) := by
  have hfactor : factor.read st (keyword :: ts) = .ok (f, mid) := by
    rw [read_factor_function hst hkeyword, hf, ok_bind]
    cases hreturns : st.has .returns with
    | false => rfl
    | true =>
      have hparenthesis : "(" ∈ continuers st := by simp [continuers, hreturns]
      have hbudget : budget (keyword :: ts).length = 16 * (keyword :: ts).length + 31 + 1 := rfl
      rw [if_pos rfl, hbudget, calls, hmid.nextIs hparenthesis]
      rfl
  exact expression_of_factor (Stage.has_of_rank_le hst (by decide)) (.of_is hkeyword (by decide))
    hfactor (hmid.mono (by simp [continuers, operators]))

end Keyword

/-! ## Definitions -/

/-- The keyword and the name of a function statement. -/
structure Heading (st : Stage) (v : Value) (keyword name : Token) : Prop where
  isKeyword : Is "function" keyword
  position : ∃ position, keyword.field "position" = .ok position
  isName : Is st.nameTag name
  value : name.field "value" = .ok v

/-- A function statement assigns to its name the expression that starts with the keyword. -/
theorem Heading.read {v : Value} {keyword name : Token} (h : Heading st v keyword name)
    (ts : List Token) : functionStatement.read st (keyword :: name :: ts) = (do
      let p ← expression.read st (keyword :: ts)
      return (Tree.assign st (Tree.leaf st st.nameTag v) p.1, p.2)) := by
  obtain ⟨position, hposition⟩ := h.position
  have hsign : Is "=" (.record [("tag", .text "="), ("position", position)]) := rfl
  have hassignment : assignment.read st (name ::
      .record [("tag", .text "="), ("position", position)] :: keyword :: ts) = (do
        let p ← expression.read st (keyword :: ts)
        return (Tree.assign st (Tree.leaf st st.nameTag v) p.1, p.2)) := by
    rw [read_eq]
    simp [step, readAssignment, nextIs_of_is h.isName, headValue, h.value, demand_of_is hsign]
  rw [read_functionStatement_eq h.isKeyword hposition h.isName, hassignment]

/-- A function statement that is read has a keyword with a position and a name with a value. -/
theorem exists_heading (h : functionStatement.read st ts = .ok (t, rest)) :
    ∃ v keyword name more, ts = keyword :: name :: more ∧ Heading st v keyword name := by
  -- the value of the name is read by the assignment only
  have hassignment : ∀ (name : Token) (more : List Token), Is st.nameTag name →
      Yields (fun _ => ∃ v, name.field "value" = .ok v) (assignment.read st (name :: more)) := by
    intro name more hname
    rw [read_eq]
    simp only [step, readAssignment, nextIs_of_is hname, ok_bind]
    exact .bind fun v hv _ _ => ⟨v, hv⟩
  have hyields : Yields (fun _ => ∃ v keyword name more, ts = keyword :: name :: more ∧
      Heading st v keyword name) (functionStatement.read st ts) := by
    rw [read_eq]
    refine .andThen (skip_token _ _) ?_
    rintro _ ⟨keyword, rfl, hkeyword⟩
    refine .andThen (skip_token _ _) ?_
    rintro more ⟨name, rfl, hname⟩
    refine .bind fun position hposition p hp => ?_
    obtain ⟨v, hv⟩ := hassignment name _ hname p hp
    exact ⟨v, keyword, name, more, rfl, hkeyword, ⟨position, hposition⟩, hname, hv⟩
  exact hyields _ h

/-- A definition stands at the head of the tokens: the keyword, the name `v`, a list of parameters
and a block. `rest` is what follows the brace that closes the block. -/
inductive Defines (st : Stage) : List Token → Value → Tree → Tree → List Token → Prop
  | mk {v : Value} {keyword name closing : Token} {names inner rest : List Token}
      {parameters body : Tree} (heading : Heading st v keyword name)
      (hnames : nameList.read st (names ++ (inner ++ closing :: rest)) =
        .ok (parameters, inner ++ closing :: rest))
      (hbody : blockStatement.read st (inner ++ closing :: rest) = .ok (body, rest))
      (hclosing : Is "\x7d" closing) :
      Defines st (keyword :: name :: (names ++ (inner ++ closing :: rest))) v parameters body rest

/-- A block ends with the brace that closes it. -/
theorem exists_closing (h : blockStatement.read st ts = .ok (t, rest)) :
    ∃ inner closing, ts = inner ++ closing :: rest ∧ Is "\x7d" closing := by
  have hhead : Yields (fun _ => ∃ opening more, ts = opening :: more ∧ Is "\x7b" opening)
      (blockStatement.read st ts) := by
    rw [read_eq]
    refine .andThen (skip_token _ _) ?_
    rintro more ⟨opening, rfl, hopening⟩ _ _
    exact ⟨opening, more, rfl, hopening⟩
  obtain ⟨opening, more, rfl, hopening⟩ := hhead _ h
  obtain ⟨ss, closing, -, hclosing, hsequence⟩ := (read_block_iff hopening).1 h
  obtain ⟨us, rfl⟩ := hsequence.exists_append
  exact ⟨opening :: us, closing, rfl, hclosing⟩

/-- The function behind a heading is the one defined, with its list of parameters and its block. -/
theorem defines_of_literal {v : Value} {keyword name : Token} (heading : Heading st v keyword name)
    (h : functionLiteral.read st (keyword :: ts) = .ok (f, mid)) :
    ∃ parameters body, f = Tree.function parameters body ∧
      Defines st (keyword :: name :: ts) v parameters body mid := by
  have hyields : Yields (fun p => ∃ parameters body, p.1 = Tree.function parameters body ∧
      Defines st (keyword :: name :: ts) v parameters body p.2)
      (functionLiteral.read st (keyword :: ts)) := by
    rw [read_eq]
    simp only [step, readFunction, skip_of_is heading.isKeyword, ok_bind]
    refine .bind fun p hnames => .bind fun q hbody => .pure ⟨p.1, q.1, rfl, ?_⟩
    obtain ⟨parameters, behind⟩ := p
    obtain ⟨inner, closing, rfl, hclosing⟩ := exists_closing hbody
    obtain ⟨names, rfl, -⟩ := (read_solid st .nameList).toLocal _ _ hnames
    exact .mk heading hnames hbody hclosing
  exact hyields _ h

/-- A definition is read whole, if nothing behind it makes a longer expression of the function. -/
theorem Defines.read (hst : st.has .functions = true) {v : Value} {parameters body : Tree}
    (h : Defines st ts v parameters body mid) (hmid : Stops (continuers st) mid) :
    functionStatement.read st ts =
      .ok (Tree.assign st (Tree.leaf st st.nameTag v) (Tree.function parameters body), mid) := by
  obtain ⟨heading, hnames, hbody, -⟩ := h
  have hliteral := read_literal heading.isKeyword hnames hbody
  rw [heading.read, expression_of_literal hst heading.isKeyword hliteral hmid]
  rfl

/-- **A function statement goes on behind its body.** From `functions` on, what a function statement
reads starts with a definition, and it assigns to the name that is defined. But the value need not
be the function: it is the function alone just if neither an operator nor, at `returns`, an opening
parenthesis follows the closing brace, and only then does the statement end with that brace. If one
follows, the value is a call or an operation around the function, no function, and takes some of the
tokens behind the brace. Each definition with nothing of the kind behind it is read, as the
assignment of the function with the parameters and the body it has, and ends with its brace. -/
theorem function_statement_goes_on (hst : st.has .functions = true) :
    (∀ ts t rest, functionStatement.read st ts = .ok (t, rest) →
      ∃ v parameters body mid cs, Defines st ts v parameters body mid ∧
        t = Tree.assign st (Tree.leaf st st.nameTag v)
          ((Tree.function parameters body).continued st cs) ∧
        (cs = [] ↔ ¬ Ahead (continuers st) mid) ∧ (cs = [] → rest = mid) ∧
        (cs ≠ [] → rest <:+ mid ∧ rest.length < mid.length ∧ ∀ parameters' body',
          (Tree.function parameters body).continued st cs ≠ Tree.function parameters' body')) ∧
    ∀ ts v parameters body mid, Defines st ts v parameters body mid →
      Stops (continuers st) mid → functionStatement.read st ts =
        .ok (Tree.assign st (Tree.leaf st st.nameTag v) (Tree.function parameters body), mid) := by
  refine ⟨fun ts t rest h => ?_, fun ts v parameters body mid h hmid => h.read hst hmid⟩
  obtain ⟨v, keyword, name, more, rfl, heading⟩ := exists_heading h
  rw [heading.read] at h
  cases he : expression.read st (keyword :: more) with
  | error e => rw [he] at h; cases h
  | ok p =>
    rw [he] at h
    cases h
    -- the assignment reads an expression that starts with the keyword, hence with a function
    obtain ⟨f, mid, hf, hcontinued⟩ := expression_led hst heading.isKeyword more p.1 p.2 he
    obtain ⟨parameters, body, rfl, hdefines⟩ := defines_of_literal heading hf
    generalize p.1 = e, p.2 = rest at hcontinued ⊢
    cases hcontinued with
    | ended hnot =>
      exact ⟨v, parameters, body, mid, [], hdefines, rfl, by simp [hnot], fun _ => rfl,
        fun hne => absurd rfl hne⟩
    | @longer cs _ hahead hcs hpast =>
      exact ⟨v, parameters, body, mid, cs, hdefines, rfl, by simp [hcs, hahead],
        fun heq => absurd heq hcs,
        fun _ => ⟨hpast.suffix, hpast.length, Tree.continued_ne_function hcs _⟩⟩

/-- The tokens of `function h(w){w}`, and what follows them. -/
def definedTokens (rest : List Token) : List Token :=
  Token.make "function" none 0 :: Token.make "<identifier>" (some (.text "h")) 9 ::
    ([Token.make "(" none 10, Token.make "<identifier>" (some (.text "w")) 11,
      Token.make ")" none 12] ++
      ([Token.make "\x7b" none 13, Token.make "<identifier>" (some (.text "w")) 14] ++
        Token.make "\x7d" none 15 :: rest))

/-- The function that `function h(w){w}` defines. -/
def definedFunction : Tree :=
  Tree.function (Tree.leaf .functions "<identifier>" (.text "w"))
    (Tree.block [Tree.leaf .functions "<identifier>" (.text "w")])

/-- The definition `function h(w){w}` is over before a semicolon, and goes on before `*7`. -/
theorem function_statement_goes_on_of_product :
    functionStatement.read .functions (definedTokens [Token.make ";" none 16, Token.ending]) =
      .ok (Tree.assign .functions (Tree.leaf .functions "<identifier>" (.text "h"))
        definedFunction, [Token.make ";" none 16, Token.ending]) ∧
    ∃ v parameters body mid cs,
      Defines .functions (definedTokens [Token.make "*" none 16,
        Token.make "<number>" (some (.int 7)) 17, Token.ending]) v parameters body mid ∧
      Tree.assign .functions (Tree.leaf .functions "<identifier>" (.text "h"))
        (Tree.binary .functions "*" definedFunction (Tree.leaf .functions "<number>" (.int 7))) =
      Tree.assign .functions (Tree.leaf .functions "<identifier>" v)
        ((Tree.function parameters body).continued .functions cs) := by
  have hstage : Stage.has .functions .functions = true := rfl
  obtain ⟨hgoes, halone⟩ := function_statement_goes_on hstage
  have hdefines : Defines .functions (definedTokens [Token.make ";" none 16, Token.ending])
      (.text "h") (Tree.leaf .functions "<identifier>" (.text "w"))
      (Tree.block [Tree.leaf .functions "<identifier>" (.text "w")])
      [Token.make ";" none 16, Token.ending] :=
    .mk ⟨rfl, ⟨.int 0, rfl⟩, rfl, rfl⟩ rfl rfl rfl
  have hsemicolon : Is ";" (Token.make ";" none 16) := rfl
  refine ⟨halone _ _ _ _ _ hdefines (.of_is hsemicolon (by decide)), ?_⟩
  obtain ⟨v, parameters, body, mid, cs, hproduct, htree, -⟩ := hgoes (definedTokens
    [Token.make "*" none 16, Token.make "<number>" (some (.int 7)) 17, Token.ending])
    (Tree.assign .functions (Tree.leaf .functions "<identifier>" (.text "h"))
      (Tree.binary .functions "*" definedFunction (Tree.leaf .functions "<number>" (.int 7))))
    [Token.ending] rfl
  exact ⟨v, parameters, body, mid, cs, hproduct, htree⟩

/-- The statement `function f(x){return x}(3)` assigns no function: its value is the call of the
function. At `functions`, where functions are not called in place, `+1` behind the brace makes a
sum of the definition. -/
theorem definition_called_at_once : ∃ called added,
    tokenize .returns "function f(x)\x7breturn x\x7d(3)" = .ok called ∧
    functionStatement.read .returns (called ++ [Token.ending]) =
      .ok (Tree.assign .returns (Tree.leaf .returns "<identifier>" (.text "f"))
        (Tree.call .returns (Tree.function (Tree.leaf .returns "<identifier>" (.text "x"))
          (Tree.block [Tree.giveBack (some (Tree.leaf .returns "<identifier>" (.text "x")))]))
          (Tree.leaf .returns "<number>" (.int 3))), [Token.ending]) ∧
    tokenize .functions "function f(x)\x7breturn x\x7d+1" = .ok added ∧
    functionStatement.read .functions (added ++ [Token.ending]) =
      .ok (Tree.assign .functions (Tree.leaf .functions "<identifier>" (.text "f"))
        (Tree.binary .functions "+" (Tree.function (Tree.leaf .functions "<identifier>" (.text "x"))
          (Tree.block [Tree.giveBack (some (Tree.leaf .functions "<identifier>" (.text "x")))]))
          (Tree.leaf .functions "<number>" (.int 1))), [Token.ending]) :=
  ⟨_, _, rfl, rfl, rfl, rfl⟩

end Rule

end Stepwise
