import Stepwise.Proofs.Composition
import Stepwise.Proofs.FunctionArguments
import Stepwise.Proofs.Separators

/-!
# Texts without statements

White space, comments and semicolons in braces are a block without statements. The tree of such a
block has no field for statements, but an evaluator reads one. So a text with nothing to do fails,
on every machine, and a call of a function with such a body fails once the arguments have passed
(`idle_text_fails`). The environment and the output stay as they were.

- `Session.Idle`: a text of white space, comments and semicolons;
- `Lexeme.tokensAt_idle`: such a text makes semicolons only;
- `Rule.read_semicolons`: semicolons in braces are a block without statements.
-/

namespace Stepwise

open Token (Is)

/-! ## Reading -/

namespace Lexeme

/-- The piece is a gap between tokens, or a semicolon. -/
def isIdle (piece : List Char) : Bool :=
  isGap piece || piece == [';']

/-- Of gaps and semicolons only the semicolons make tokens. -/
theorem tokensAt_idle {st : Stage} (hst : st.has .blocks = true) {pieces : List (List Char)}
    (h : ∀ piece ∈ pieces, isIdle piece = true) (rest : List Char) (position : Nat) :
    ∃ signs position', (∀ t ∈ signs, Is ";" t) ∧ tokensAt st position (pieces.flatten ++ rest) =
      (tokensAt st position' rest).map (signs ++ ·) := by
  induction pieces generalizing position with
  | nil =>
    refine ⟨[], position, by simp, ?_⟩
    cases htokens : tokensAt st position rest <;> simp [htokens, Except.map]
  | cons piece pieces ih =>
    rw [List.forall_mem_cons] at h
    rw [List.flatten_cons, List.append_assoc]
    rcases Bool.or_eq_true_iff.1 h.1 with hgap | hsemicolon
    · rw [tokensAt_gap hst hgap]
      exact ih h.2 _
    · obtain rfl := beq_iff_eq.1 hsemicolon
      obtain ⟨signs, position', hsigns, htokens⟩ := ih h.2 (position + 1)
      refine ⟨Token.make ";" none position :: signs, position', ?_, ?_⟩
      · exact List.forall_mem_cons.2 ⟨(Token.fields_make ";" none position).1, hsigns⟩
      · rw [List.singleton_append, tokensAt_sign hst (by decide) (by decide), htokens]
        cases tokensAt st position' rest <;> rfl

end Lexeme

/-- **Semicolons in braces are a block without statements.** -/
theorem Rule.read_semicolons (st : Stage) {opening closing : Token} (hopening : Is "\x7b" opening)
    (hclosing : Is "\x7d" closing) {signs : List Token} (hsigns : ∀ t ∈ signs, Is ";" t)
    (rest : List Token) :
    blockStatement.read st (opening :: (signs ++ closing :: rest)) = .ok (Tree.block [], rest) :=
  (read_block_iff hopening).2
    ⟨[], closing, rfl, hclosing, (Sequence.done hclosing).semicolons hsigns⟩

namespace Session

/-- The text has nothing in it but white space, comments with their line ends, and semicolons. -/
def Idle (text : String) : Prop :=
  ∃ pieces : List (List Char), text.toList = pieces.flatten ∧
    ∀ piece ∈ pieces, Lexeme.isIdle piece = true

/-- In braces such a text is read as a block without statements, whatever follows. -/
theorem Idle.read {st : Stage} (hst : st.has .blocks = true) {text : String} (h : Idle text) :
    ∃ ts, tokenize st (wrap st text) = .ok ts ∧
      ∀ rest, Rule.blockStatement.read st (ts ++ rest) = .ok (Tree.block [], rest) ∧
        Rule.statement.read st (ts ++ rest) = .ok (Tree.block [], rest) := by
  obtain ⟨pieces, htext, hpieces⟩ := h
  obtain ⟨signs, position, hsigns, htokens⟩ := Lexeme.tokensAt_idle hst hpieces ['\x7d'] 1
  have hopening := (Token.fields_make "\x7b" none 0).1
  have hclosing := (Token.fields_make "\x7d" none position).1
  refine ⟨Token.make "\x7b" none 0 :: (signs ++ [Token.make "\x7d" none position]), ?_, ?_⟩
  · show Lexeme.tokensAt st 0 (wrap st text).toList = _
    rw [toList_wrap hst, htext, Lexeme.tokensAt_sign hst (by decide) (by decide), htokens,
      Lexeme.tokensAt_sign hst (by decide) (by decide)]
    rfl
  · intro rest
    rw [List.cons_append, List.append_assoc, Rule.read_statement_of_brace hst hopening]
    have hblock := Rule.read_semicolons st hopening hclosing hsigns rest
    exact ⟨hblock, hblock⟩

end Session

/-! ## Running -/

/-- **A block without statements fails**, and nothing else happens. -/
theorem ends_block_nil {st : Stage} (hst : st.has .blocks = true) {m m' : Machine}
    {r : Except Fault Completion} : Ends st .statement (Tree.block []) m r m' ↔
      r = .error (.missingField "statement") ∧ m' = m := by
  rw [Ends.eq_reaches fun n => evaluate_block_nil n hst, Action.Reaches.const_iff]
  constructor
  · rintro ⟨-, h⟩
    cases h
    exact ⟨rfl, rfl⟩
  · rintro ⟨rfl, rfl⟩
    exact ⟨by simp, rfl⟩

/-- So does a program that is one. -/
theorem Program.run_block_nil {st : Stage} (hst : st.has .blocks = true) {code : String}
    (h : Program.tree st code = .ok (Tree.block [])) :
    Program.run st code = throw (.missingField "statement") := by
  have hbudget : Program.budget = 999999999 + 1 := rfl
  rw [Program.run, h, hbudget]
  exact evaluate_block_nil _ hst

/-- **A text with nothing to do fails.** From `blocks` on a text of white space, comments and
semicolons is, in braces, a block without statements. On every machine the field `statement` of the
block is missed, and nothing else happens; so it is for the session too. From `functions` on a call
of a function whose body is such a block never completes: once the arguments have passed it misses
the same field, and leaves the machine as the arguments left it. -/
theorem idle_text_fails {st : Stage} (hst : st.has .blocks = true) {text : String}
    (htext : Session.Idle text) :
    (∃ ts, tokenize st (Session.wrap st text) = .ok ts ∧
      ∀ rest, Rule.blockStatement.read st (ts ++ rest) = .ok (Tree.block [], rest)) ∧
    Program.tree st (Session.wrap st text) = .ok (Tree.block []) ∧
    (∀ m r m', Ends st .statement (Tree.block []) m r m' ↔
      r = .error (.missingField "statement") ∧ m' = m) ∧
    (∀ m, Program.run st (Session.wrap st text) m = (.error (.missingField "statement"), m)) ∧
    (∀ m, Session.ofStage st text m = (.error (.missingField "statement"), m)) ∧
    (st.has .functions = true → ∀ mode f es xs m m₁ c,
      Ends st .expression (Expression.tree st f) m (.ok c) m₁ →
      Node.functionParts c.value = .ok (Identifier.listTree st xs, Tree.block []) →
      (∀ d m', ¬ Ends st mode ((Expression.call f es).tree st) m (.ok d) m') ∧
      ∀ vs m₂, Passes st xs es m₁ vs m₂ → ∀ r m',
        Ends st mode ((Expression.call f es).tree st) m r m' ↔
          r = .error (.missingField "statement") ∧ m' = m₂) := by
  obtain ⟨ts, hts, hread⟩ := htext.read hst
  have htree : Program.tree st (Session.wrap st text) = .ok (Tree.block []) := by
    rw [Program.tree_eq_parse hts, parse_eq_ok_iff (Stage.has_of_rank_le hst (by decide))]
    exact ⟨_, (hread _).2⟩
  have hrun := Program.run_block_nil hst htree
  refine ⟨⟨ts, hts, fun rest => (hread rest).1⟩, htree, fun _ _ _ => ends_block_nil hst, ?_, ?_, ?_⟩
  · intro m
    rw [hrun]
    rfl
  · intro m
    rw [Session.ofStage, hrun, Action.throw_bind]
    rfl
  · intro hfunctions mode f es xs m m₁ c hf hc
    have hcall : ∀ vs m₂, Passes st xs es m₁ vs m₂ → ∀ r m',
        Ends st mode ((Expression.call f es).tree st) m r m' ↔
          r = .error (.missingField "statement") ∧ m' = m₂ := by
      intro vs m₂ hpasses r m'
      rw [ends_call_of_passes hfunctions hf hc hpasses]
      constructor
      · rintro ⟨after, hbody, rfl⟩
        obtain ⟨rfl, rfl⟩ := (ends_block_nil hst).1 hbody
        exact ⟨rfl, rfl⟩
      · rintro ⟨rfl, rfl⟩
        exact ⟨_, (ends_block_nil hst).2 ⟨rfl, rfl⟩, rfl⟩
    refine ⟨fun d m' hends => ?_, hcall⟩
    obtain ⟨vs, m₂, hpasses⟩ := passes_of_ends hfunctions hf hc hends
    cases ((hcall vs m₂ hpasses _ _).1 hends).1

/-- With `h` a function without statements: a comment between semicolons fails, and so does
`h()`. -/
theorem idle_text_fails_of_comment :
    let h : Expression := .name ⟨"h", by decide⟩
    let m : Machine := ⟨.record [("h", (Expression.function [] []).tree .returns)], ""⟩
    Session.Idle " ;//n\n;" ∧
    Session.ofStage .returns " ;//n\n;" m = (.error (.missingField "statement"), m) ∧
    Ends .returns .statement ((Expression.call h []).tree .returns) m
      (.error (.missingField "statement")) m := by
  intro h m
  have hidle : Session.Idle " ;//n\n;" :=
    ⟨[[' '], [';'], ['/', '/', 'n', '\n'], [';']], rfl, by decide⟩
  have hstage : Stage.has .returns .blocks = true := rfl
  obtain ⟨-, -, -, -, hsession, hcalls⟩ := idle_text_fails hstage hidle
  have hcallee : Ends .returns .expression (h.tree .returns) m
      (.ok (.normal ((Expression.function [] []).tree .returns))) m := ⟨by simp, 9, rfl⟩
  obtain ⟨-, hcall⟩ := hcalls rfl .statement h [] [] m m _ hcallee rfl
  exact ⟨hidle, hsession m, (hcall [] m (.done m) _ _).2 ⟨rfl, rfl⟩⟩

/-- Nothing at all is a text with nothing to do. -/
theorem empty_source_fails :
    Session.wrap .blocks "" = "\x7b\x7d" ∧
    Program.run .blocks "\x7b\x7d" ⟨.record [], ""⟩ =
      (.error (.missingField "statement"), ⟨.record [], ""⟩) := by
  have htree : Program.tree .blocks "\x7b\x7d" = .ok (Tree.block []) := rfl
  refine ⟨rfl, ?_⟩
  rw [Program.run_block_nil rfl htree]
  rfl

end Stepwise
