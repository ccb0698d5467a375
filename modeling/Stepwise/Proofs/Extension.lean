import Stepwise.Proofs.Chains
import Stepwise.Proofs.StatementStages
import Stepwise.Proofs.TokenStages

/-!
# Later stages extend earlier ones

Two comparisons of whole stages, from the text of a program to its effect.

- `Program.returns_extends_scopes`: a program of `scopes` is a program of `returns` with the
  same tree, and does the same there;
- `Program.scopes_agrees_with_blocks`: where there is one frame only, it does not matter that
  names are looked up in a chain.

The two evaluators are compared at every budget, so one of them runs out of it exactly where the
other does: a program ends at the one stage if and only if it ends at the other.
-/

namespace Stepwise

open Token (Is)
open Action (Agree)

/-! ## Trees of elementary programs -/

section Trees

variable {truths : Bool} {st st' : Stage}

/-- Stages with blocks keep elementary expressions in the same records. -/
theorem Expression.tree_eq (hst : st.has .blocks = true) (hst' : st'.has .blocks = true) :
    ∀ {e : Expression}, e.elementary truths = true → e.tree st' = e.tree st
  | .number _, _ | .boolean _, _ | .name _, _ => by
    simp [Expression.tree, Identifier.tree, Tree.leaf, Stage.numberTag, Stage.booleanTag,
      Stage.nameTag, Stage.literalTag, hst, hst']
  | .negate e, he | .not e, he => by
    simp [Expression.tree, Tree.unary, hst, hst', Expression.tree_eq hst hst' (e := e) he]
  | .binary op l r, he => by
    simp only [Expression.elementary, Bool.and_eq_true] at he
    simp [Expression.tree, Tree.binary, hst, hst', Expression.tree_eq hst hst' he.1,
      Expression.tree_eq hst hst' he.2]
  | .call _ _, he | .function _ _, he => by cases he

mutual

/-- From `blocks` on an elementary statement has one tree. -/
theorem Statement.tree_eq (hst : st.has .blocks = true) (hst' : st'.has .blocks = true) :
    ∀ {s : Statement}, s.elementary truths = true → s.tree st' = s.tree st
  | .block ss, hs => congrArg Tree.block (Statement.trees_eq hst hst' hs)
  | .branch c s none, hs => by
    simp only [Statement.elementary, Bool.and_eq_true] at hs
    simp [Statement.tree, Tree.branch, hst, hst', Expression.tree_eq hst hst' hs.1,
      Statement.tree_eq hst hst' hs.2]
  | .branch c s (some a), hs => by
    simp only [Statement.elementary, Bool.and_eq_true] at hs
    simp [Statement.tree, Tree.branch, hst, hst', Expression.tree_eq hst hst' hs.1.1,
      Statement.tree_eq hst hst' hs.1.2, Statement.tree_eq hst hst' hs.2]
  | .loop c s, hs => by
    simp only [Statement.elementary, Bool.and_eq_true] at hs
    simp [Statement.tree, Tree.loop, hst, hst', Expression.tree_eq hst hst' hs.1,
      Statement.tree_eq hst hst' hs.2]
  | .assign x e, hs => by
    have hx : x.tree st' = x.tree st := @Expression.tree_eq truths st st' hst hst' (.name x) rfl
    simp [Statement.tree, Tree.assign, hst, hst', hx, Expression.tree_eq (e := e) hst hst' hs]
  | .expression e, hs => Expression.tree_eq (e := e) hst hst' hs
  | .giveBack _, hs | .print _, hs => by cases hs

theorem Statement.trees_eq (hst : st.has .blocks = true) (hst' : st'.has .blocks = true) :
    ∀ {ss : List Statement}, Statement.allElementary truths ss = true →
      Statement.trees st' ss = Statement.trees st ss
  | [], _ => rfl
  | s :: ss, hs => by
    simp only [Statement.allElementary, Bool.and_eq_true] at hs
    simp [Statement.trees, Statement.tree_eq hst hst' hs.1, Statement.trees_eq hst hst' hs.2]

end

end Trees

/-! ## From `scopes` to `returns` -/

/-- Names are looked up in a chain at both stages. -/
theorem Stage.alike_scopes_returns : Stage.Alike (fun _ => True) false .scopes .returns where
  booleans := ⟨rfl, rfl⟩
  lookup _ _ _ := rfl
  assign _ _ _ _ := trivial
  truth h := by cases h

/-- **`returns` is a conservative extension of `scopes`.** A text without truth values that
`scopes` reads to its end has the same tree at `returns`. In every environment the two evaluators
do the same to it at every budget, with the same result or fault and the same environment
afterwards, and nothing is returned. -/
theorem Program.returns_extends_scopes {code : String} {ts : List Token} {t : Tree}
    (htokens : tokenize .scopes code = .ok ts)
    (htruths : ∀ token ∈ ts, ¬ Is (Stage.booleanTag .scopes) token)
    (hread : Rule.statement.read .scopes (ts ++ [Token.ending]) = .ok (t, [Token.ending])) :
    Program.tree .returns code = .ok t ∧
      ∀ (n : Nat) (m : Machine),
        evaluate .returns n .statement t m = evaluate .scopes n .statement t m ∧
        ∀ c m', evaluate .returns n .statement t m = (.ok c, m') → c.returning = false := by
  have hcuts : Lexeme.SameCuts .scopes .returns code.toList := .inl ⟨rfl, rfl⟩
  obtain ⟨ts', htokens', haligned⟩ :=
    tokenize_aligned false rfl rfl hcuts ts htokens (.inr htruths)
  obtain ⟨s, rest, hs, rfl, hread', -⟩ :=
    Rule.apply_statement rfl rfl rfl (by decide) _ (by decide) haligned _ hread
      fun _ => Rule.Stops.ending _
  have htree : s.tree .returns = s.tree .scopes := Statement.tree_eq rfl rfl hs
  have hagree := fun n m =>
    ((statement_agree Stage.alike_scopes_returns rfl rfl hs n).result m trivial).1
  simp only [htree] at hread' hagree
  refine ⟨?_, fun n m => ⟨hagree n m, fun c m' h => ?_⟩⟩
  · rw [Program.tree_eq_parse htokens', parse_eq_ok_iff rfl]
    exact ⟨rest, hread'⟩
  · have hquiet : Action.Quiet (evaluate .scopes n .statement (s.tree .scopes)) :=
      evaluate_quiet rfl n .statement _
    have hm := hquiet m
    rw [← hagree, h] at hm
    exact hm c rfl

namespace Program

/-- The tokens of `while(x<3)x=x+1`. -/
def countingTokens : List Token :=
  [.make "while" none 0, .make "(" none 5, .make "<identifier>" (some (.text "x")) 6,
    .make "<" none 7, .make "<number>" (some (.int 3)) 8, .make ")" none 9,
    .make "<identifier>" (some (.text "x")) 10, .make "=" none 11,
    .make "<identifier>" (some (.text "x")) 12, .make "+" none 13,
    .make "<number>" (some (.int 1)) 14]

/-- The tree of `while(x<3)x=x+1`. -/
def counting : Tree :=
  let x := Tree.leaf .scopes "<identifier>" (.text "x")
  Tree.loop .scopes (Tree.binary .scopes "<" x (Tree.leaf .scopes "<number>" (.int 3)))
    (Tree.assign .scopes x (Tree.binary .scopes "+" x (Tree.leaf .scopes "<number>" (.int 1))))

theorem returns_extends_scopes_counting :
    tokenize .scopes "while(x<3)x=x+1" = .ok countingTokens ∧
      (∀ token ∈ countingTokens, ¬ Is (Stage.booleanTag .scopes) token) ∧
      Rule.statement.read .scopes (countingTokens ++ [Token.ending]) =
        .ok (counting, [Token.ending]) ∧
      Program.tree .returns "while(x<3)x=x+1" = .ok counting ∧
      ∀ (n : Nat) (m : Machine),
        evaluate .returns n .statement counting m = evaluate .scopes n .statement counting m := by
  have htokens : tokenize .scopes "while(x<3)x=x+1" = .ok countingTokens := by rfl
  have htruths : ∀ token ∈ countingTokens, ¬ Is (Stage.booleanTag .scopes) token := by
    simp [countingTokens, Is, Token.make, Value.field, Fields.get?, Stage.booleanTag,
      Stage.literalTag, Stage.has, Stage.rank]
  have hread : Rule.statement.read .scopes (countingTokens ++ [Token.ending]) =
      .ok (counting, [Token.ending]) := by rfl
  obtain ⟨htree, hruns⟩ := returns_extends_scopes htokens htruths hread
  exact ⟨htokens, htruths, hread, htree, fun n m => (hruns n m).1⟩

end Program

/-! ## The parser of `blocks` and `scopes` -/

namespace Rule

variable (rule : Rule → List Token → Reading)

/-- A chain of operators is read alike. -/
theorem leftward_scopes (operand : Rule) (tags : List String) (n : Nat) (left : Tree)
    (ts : List Token) :
    leftward .scopes rule operand tags n left ts =
      leftward .blocks rule operand tags n left ts := by
  induction n generalizing left ts with
  | zero => rfl
  | succ n ih =>
    simp only [leftward, ih]
    rfl

theorem calls_scopes (n : Nat) (callee : Tree) (ts : List Token) :
    calls .scopes rule n callee ts = calls .blocks rule n callee ts := by
  induction n generalizing callee ts with
  | zero => rfl
  | succ n ih =>
    simp only [calls, ih]
    rfl

theorem moreParameters_scopes (n : Nat) (ts : List Token) :
    moreParameters .scopes n ts = moreParameters .blocks n ts := by
  induction n generalizing ts with
  | zero => rfl
  | succ n ih =>
    simp only [moreParameters, ih]
    rfl

/-- **A rule reads alike at both stages**, as neither has functions and both have blocks. -/
theorem step_scopes (n : Nat) (r : Rule) (ts : List Token) :
    step .scopes rule n r ts = step .blocks rule n r ts := by
  cases r with
  | disjunction | conjunction | comparison | sum | product =>
    simp only [step, readLeftward, leftward_scopes]
  | callable => simp only [step, calls_scopes]
  | nameList =>
    simp only [step, readNameList, moreParameters_scopes]
    rfl
  | _ => rfl

/-- So do all rules, by induction on the budget. -/
theorem apply_scopes (n : Nat) (r : Rule) (ts : List Token) :
    apply .scopes n r ts = apply .blocks n r ts := by
  induction n generalizing r ts with
  | zero => rfl
  | succ n ih =>
    have hrules : apply .scopes n = apply .blocks n := by
      funext r ts
      exact ih r ts
    rw [apply, apply, hrules]
    exact step_scopes _ n r ts

end Rule

/-- **The two stages have one parser**, tokenizer included. -/
theorem Program.tree_scopes (code : String) :
    Program.tree .scopes code = Program.tree .blocks code := by
  have hscan : Lexeme.scan .scopes code.toList = Lexeme.scan .blocks code.toList :=
    Lexeme.scanFrom_eq rfl rfl (.inl ⟨rfl, rfl⟩) 0 0
  have htokens : tokenize .scopes code = tokenize .blocks code := by
    rw [tokenize, hscan]
    rfl
  have hread : ∀ ts : List Token, Rule.statement.read .scopes ts = Rule.statement.read .blocks ts :=
    fun ts => Rule.apply_scopes _ .statement ts
  rw [Program.tree, Program.tree, htokens]
  refine bind_congr fun ts => ?_
  show (Rule.statement.read .scopes (ts ++ [Token.ending]) >>= _) = _
  rw [hread]
  rfl

/-! ## One frame -/

/-- An assignment never makes an enclosing frame. -/
theorem Action.assign_flat (x : Identifier) (v : Value) {m : Machine}
    (hm : Name.Flat m.environment) :
    Name.Flat (Action.assign (.text x.text) v m).2.environment := by
  obtain ⟨env, printed⟩ := m
  obtain ⟨fields, rfl, hparent⟩ := hm
  refine ⟨Fields.set x.text v fields, rfl, ?_⟩
  rw [Fields.get?_set_of_text_ne v x.text_ne_parent.symm]
  exact hparent

/-- In one frame both stages look a name up alike, and binding keeps it one frame. -/
theorem Stage.alike_blocks_scopes : Stage.Alike Name.Flat true .blocks .scopes where
  booleans := ⟨rfl, rfl⟩
  lookup x env h := Name.resolve_of_flat x.text h
  assign x v _ hm := Action.assign_flat x v hm
  truth _ n mode b := by
    -- neither evaluator knows truth values: both look for operands
    cases n with
    | zero => exact .throw _
    | succ n => cases mode <;> exact .throw (.missingField "left")

/-- Without functions all programs are elementary. -/
theorem Program.tree_elementary {st : Stage} (hst : st.has .blocks = true)
    (hf : st.has .functions = false) (code : String) :
    Yields (fun t => ∃ s : Statement, s.elementary true = true ∧ t = s.tree st)
      (Program.tree st code) := by
  have hbooleans : st.has .booleans = true ∧ st.has .assignments = true :=
    ⟨Stage.has_of_rank_le hst (by decide), Stage.has_of_rank_le hst (by decide)⟩
  have hne : st ≠ .functions ∧ st ≠ .returns := by
    cases st <;> first | exact ⟨by decide, by decide⟩ | cases hf
  refine .bind fun ts hts t ht => ?_
  obtain ⟨ts', -, haligned⟩ :=
    tokenize_aligned true hbooleans.1 hbooleans.1 (.inl ⟨hst, hst⟩) ts hts (.inl rfl)
  obtain ⟨rest, hread⟩ := (parse_eq_ok_iff hbooleans.2).1 ht
  obtain ⟨s, -, hs, htree, -⟩ :=
    Rule.apply_statement hst hst hf hne.1 _ (by decide) haligned _ hread fun h => absurd h hne.2
  exact ⟨s, hs, htree⟩

/-- **In one frame `scopes` agrees with `blocks`.** The stages have the same parser, and in an
environment without an enclosing frame their evaluators do the same to every program at every
budget; the environment that they leave is one frame again. -/
theorem Program.scopes_agrees_with_blocks (code : String) :
    Program.tree .scopes code = Program.tree .blocks code ∧
      ∀ (t : Tree) (fields : Fields), Program.tree .blocks code = .ok t →
        Fields.get? Name.parentField fields = none → ∀ (n : Nat) (printed : String),
          evaluate .scopes n .statement t ⟨.record fields, printed⟩ =
            evaluate .blocks n .statement t ⟨.record fields, printed⟩ ∧
          ∃ fields', (evaluate .scopes n .statement t ⟨.record fields, printed⟩).2.environment =
            .record fields' ∧ Fields.get? Name.parentField fields' = none := by
  refine ⟨Program.tree_scopes code, fun t fields htree hflat n printed => ?_⟩
  obtain ⟨s, hs, rfl⟩ := Program.tree_elementary rfl rfl code t htree
  have hsame : s.tree .scopes = s.tree .blocks := Statement.tree_eq rfl rfl hs
  have hagree := (statement_agree Stage.alike_blocks_scopes rfl rfl hs n).result
    ⟨.record fields, printed⟩ ⟨fields, rfl, hflat⟩
  rw [hsame] at hagree
  refine ⟨hagree.1, ?_⟩
  rw [hagree.1]
  exact hagree.2

namespace Program

/-- The tree of `{y=x+1;z}`. -/
def undefinedLater : Tree :=
  Tree.block [
    Tree.assign .blocks (Tree.leaf .blocks "<identifier>" (.text "y"))
      (Tree.binary .blocks "+" (Tree.leaf .blocks "<identifier>" (.text "x"))
        (Tree.leaf .blocks "<number>" (.int 1))),
    Tree.leaf .blocks "<identifier>" (.text "z")]

theorem scopes_agrees_with_blocks_undefined :
    Program.tree .blocks "{y=x+1;z}" = .ok undefinedLater ∧
      Fields.get? Name.parentField [("x", .int 1)] = none ∧
      ∀ (n : Nat) (printed : String),
        evaluate .scopes n .statement undefinedLater ⟨.record [("x", .int 1)], printed⟩ =
          evaluate .blocks n .statement undefinedLater ⟨.record [("x", .int 1)], printed⟩ := by
  have htree : Program.tree .blocks "{y=x+1;z}" = .ok undefinedLater := by rfl
  have hflat : Fields.get? Name.parentField [("x", .int 1)] = none := by rfl
  refine ⟨htree, hflat, fun n printed => ?_⟩
  exact ((scopes_agrees_with_blocks "{y=x+1;z}").2 undefinedLater _ htree hflat n printed).1

end Program

end Stepwise
