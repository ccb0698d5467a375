import Stepwise.Proofs.Parentheses
import Stepwise.Proofs.Separators

/-!
# Returns without a value

By the grammar the value of a `return` is optional. The parser takes it for missing only where a
statement may end with a sign of its own: before a semicolon, a closing brace and the ending
(`read_return_iff`). An `else` can follow a statement as well, and there it looks for the value. So
`if (…) return else …` is never read, whatever stands for the dots (`bare_return_before_else`).
-/

namespace Stepwise.Rule

open Token (headTag Is)

variable {st : Stage} {ret : Token} {ts rest : List Token}

/-- A `return` is bare just before what ends a statement, and takes none of it. -/
theorem read_return_iff (hret : Is "return" ret) :
    returnStatement.read st (ret :: ts) = .ok (Tree.giveBack none, rest) ↔
      Ended ts ∧ rest = ts := by
  constructor
  · have hyields : Yields (fun p => p.1 = Tree.giveBack none → Ended ts ∧ p.2 = ts)
        (returnStatement.read st (ret :: ts)) := by
      rw [read_eq]
      simp only [step, readReturn, skip_of_is hret, ok_bind]
      refine .bind fun v hv => .ite (fun hends => .pure fun _ => ⟨⟨v, hv, hends⟩, rfl⟩) fun _ => ?_
      refine .bind fun q _ => .pure fun heq => ?_
      simp [Tree.giveBack, Tree.node] at heq
    intro h
    exact hyields _ h rfl
  · rintro ⟨⟨v, hv, hends⟩, rfl⟩
    rw [read_eq]
    simp only [step, readReturn, skip_of_is hret, ok_bind, hv, if_pos hends]
    rfl

/-- Behind `return` an `else` is taken for the start of a value. -/
theorem read_return_else (hst : st.has .functions = true) {otherwise : Token}
    (hret : Is "return" ret) (hotherwise : Is "else" otherwise) (ts : List Token) :
    returnStatement.read st (ret :: otherwise :: ts) = .error (.unexpected otherwise) := by
  have hexpression : expression.read st (otherwise :: ts) = .error (.unexpected otherwise) :=
    expression_error (Stage.has_of_rank_le hst (by decide)) (.of_is hotherwise (by decide))
      (read_factor_unexpected hotherwise (by decide) (by decide) ts)
  rw [read_eq]
  simp only [step, readReturn, skip_of_is hret, ok_bind, headTag_of_is hotherwise, hexpression]
  rfl

/-- A condition that is read before the ending is read before a parenthesis. -/
theorem condition_before {c : List Token} {condition : Tree} {opening closing : Token}
    (hc : expression.read st (c ++ [Token.ending]) = .ok (condition, [Token.ending]))
    (hopening : Is "(" opening) (hclosing : Is ")" closing) (what : String) (rest : List Token) :
    readCondition (Rule.read st) what (opening :: (c ++ closing :: rest)) =
      .ok (condition, rest) := by
  have hquits : Quits st .expression (closing :: rest) :=
    .of_is hclosing (by cases st <;> decide)
  exact read_condition what hopening hclosing (read_again hc hquits)

/-- **No `else` stands behind a bare `return`.** From `functions` on, let `c` be the tokens of a
whole expression. Then `if (c) return else …` is refused, whatever follows the `else`, and what is
reported is the `else`. Without an `else` the branch may be a bare `return`, and in braces it may
before an `else` as well, with any whole statement behind it: `if (c) {return} else s`. For a
`return` is bare just before a semicolon, a closing brace and the ending. -/
theorem bare_return_before_else (hst : st.has .functions = true)
    {keyword opening closing ret otherwise : Token} (hkeyword : Is "if" keyword)
    (hopening : Is "(" opening) (hclosing : Is ")" closing) (hret : Is "return" ret)
    (hotherwise : Is "else" otherwise) {c : List Token} {condition : Tree}
    (hc : expression.read st (c ++ [Token.ending]) = .ok (condition, [Token.ending])) :
    (∀ s, statement.read st (keyword :: opening :: (c ++ closing :: ret :: otherwise :: s)) =
      .error (.unexpected otherwise)) ∧
    statement.read st (keyword :: opening :: (c ++ [closing, ret, Token.ending])) =
      .ok (Tree.branch st condition (Tree.giveBack none) none, [Token.ending]) ∧
    (∀ left right, Is "\x7b" left → Is "\x7d" right → ∀ s alternative,
      statement.read st (s ++ [Token.ending]) = .ok (alternative, [Token.ending]) →
      statement.read st (keyword :: opening ::
          (c ++ closing :: left :: ret :: right :: otherwise :: (s ++ [Token.ending]))) =
        .ok (Tree.branch st condition (Tree.block [Tree.giveBack none]) (some alternative),
          [Token.ending])) ∧
    ∀ ts rest, returnStatement.read st (ret :: ts) = .ok (Tree.giveBack none, rest) ↔
      Ended ts ∧ rest = ts := by
  have hcondition := fun rest what => condition_before hc hopening hclosing what rest
  have hblocks : st.has .blocks = true := Stage.has_of_rank_le hst (by decide)
  have hreturn : ∀ ts, statement.read st (ret :: ts) = returnStatement.read st (ret :: ts) :=
    fun ts => read_statement_keyword hst hret (by simp)
  have hbare : ∀ {ts}, Ended ts → statement.read st (ret :: ts) = .ok (Tree.giveBack none, ts) :=
    fun hts => (hreturn _).trans ((read_return_iff hret).2 ⟨hts, rfl⟩)
  have hif : ∀ ts, statement.read st (keyword :: ts) = ifStatement.read st (keyword :: ts) :=
    fun ts => read_statement_keyword hst hkeyword (by simp)
  refine ⟨fun s => ?_, ?_, fun left right hleft hright s alternative hs => ?_,
    fun ts rest => read_return_iff hret⟩
  · have hthen := (hreturn _).trans (read_return_else hst hret hotherwise s)
    rw [hif, read_eq]
    simp only [step, readIf, skip_of_is hkeyword, ok_bind, hcondition, hthen]
    rfl
  · rw [hif]
    exact read_ifThen hblocks hkeyword (hcondition _) (hbare ⟨.null, rfl, rfl⟩) (.ending _)
  · have hbody : Sequence st (ret :: right :: otherwise :: (s ++ [Token.ending]))
        [Tree.giveBack none] (right :: otherwise :: (s ++ [Token.ending])) :=
      .cons (.of_is hret (by decide)) (hbare (.of_mem (by decide) hright _))
        ⟨"\x7d", by decide, hright⟩ (.done hright)
    have hblock := (read_block_iff hleft).2 ⟨_, right, rfl, hright, hbody⟩
    rw [← read_statement_of_brace hblocks hleft] at hblock
    rw [hif]
    exact read_ifElse hblocks hkeyword (hcondition _) hblock hotherwise hs

/-- Behind `if(q)return` no `else` may stand, with the statement `2` or without. Behind
`if(q){return}` it may. -/
theorem bare_return_before_else_of_name :
    expression.read .functions [Token.make "<identifier>" (some (.text "q")) 3, Token.ending] =
      .ok (Tree.leaf .functions "<identifier>" (.text "q"), [Token.ending]) ∧
    statement.read .functions [Token.make "if" none 0, Token.make "(" none 2,
      Token.make "<identifier>" (some (.text "q")) 3, Token.make ")" none 4,
      Token.make "return" none 5, Token.make "else" none 12,
      Token.make "<number>" (some (.int 2)) 17, Token.ending] =
      .error (.unexpected (Token.make "else" none 12)) ∧
    statement.read .functions [Token.make "if" none 0, Token.make "(" none 2,
      Token.make "<identifier>" (some (.text "q")) 3, Token.make ")" none 4,
      Token.make "\x7b" none 5, Token.make "return" none 6, Token.make "\x7d" none 12,
      Token.make "else" none 13, Token.make "<number>" (some (.int 2)) 18, Token.ending] =
      .ok (Tree.branch .functions (Tree.leaf .functions "<identifier>" (.text "q"))
        (Tree.block [Tree.giveBack none]) (some (Tree.leaf .functions "<number>" (.int 2))),
        [Token.ending]) := by
  have hstage : Stage.has .functions .functions = true := rfl
  have hcondition : expression.read .functions
      ([Token.make "<identifier>" (some (.text "q")) 3] ++ [Token.ending]) =
      .ok (Tree.leaf .functions "<identifier>" (.text "q"), [Token.ending]) := rfl
  have his : ∀ tag position, Is tag (Token.make tag none position) :=
    fun tag position => (Token.fields_make tag none position).1
  have hplain := bare_return_before_else hstage (his "if" 0) (his "(" 2) (his ")" 4)
    (his "return" 5) (his "else" 12) hcondition
  have hbraces := bare_return_before_else hstage (his "if" 0) (his "(" 2) (his ")" 4)
    (his "return" 6) (his "else" 13) hcondition
  exact ⟨hcondition, hplain.1 _, hbraces.2.2.1 _ _ (his "\x7b" 5) (his "\x7d" 12)
    [Token.make "<number>" (some (.int 2)) 18] _ rfl⟩

/-- The text `if(1)return else x` is no program, though `1` is an expression and `x` a statement. -/
theorem return_else_unexpected : ∃ ts,
    tokenize .returns "if(1)return else x" = .ok ts ∧
    parse .returns ts = .error (.unexpected (Token.make "else" none 12)) ∧
    parse .functions ts = .error (.unexpected (Token.make "else" none 12)) :=
  ⟨_, rfl, rfl, rfl⟩

end Stepwise.Rule
