import Mathlib.Data.List.Forall2
import Stepwise.Proofs.ParserSafety
import Stepwise.Proofs.StatementStages
import Stepwise.Proofs.TokenStages

/-!
# Where tokens stand does not matter

The parser looks at the tags and values of tokens. Two lists of tokens that differ only in their
positions have the same tree, or both fail in the same way, and so two texts with such tokens do
the same (`parse_ignores_places`). The one rule that reads a position gives it to a token that it
makes up: `function name …` is read as `name = function …`.

- `Concur R x y`: both computations succeed, with results that are related by `R`, or both fail,
  with faults of one family;
- `Token.Alike`: the tokens differ at most in where they stand;
- `Rule.apply_concurs`: a rule gives the same on lists of such tokens. One lemma for each reader of
  the parser, and an induction on the budget;
- `Program.within`: a program text run within a budget.
-/

namespace Stepwise

/-! ## Computations side by side -/

/-- Both succeed, with related results, or both fail, with faults of one family. -/
def Concur {α β : Type} (R : α → β → Prop) : Except Fault α → Except Fault β → Prop
  | .ok a, .ok b => R a b
  | .error e, .error e' => e'.kind = e.kind
  | _, _ => False

namespace Concur

variable {α β γ δ : Type} {R : α → β → Prop} {S : γ → δ → Prop}

theorem pure {a : α} {b : β} (h : R a b) : Concur R (pure a) (pure b) := h

/-- Faults of one kind concur. -/
theorem error {e e' : Fault} (h : e'.kind = e.kind) :
    Concur R (.error e : Except Fault α) (.error e' : Except Fault β) := h

/-- Sequences concur if their parts do. -/
theorem bind {x : Except Fault α} {y : Except Fault β} {f : α → Except Fault γ}
    {g : β → Except Fault δ} (hx : Concur R x y) (hf : ∀ a b, R a b → Concur S (f a) (g b)) :
    Concur S (x >>= f) (y >>= g) := by
  cases x with
  | ok a =>
    cases y with
    | ok b => exact hf a b hx
    | error e => exact hx.elim
  | error e =>
    cases y with
    | ok b => exact hx.elim
    | error e' => exact hx

/-- Both start with the same computation. -/
theorem same {x y : Except Fault α} {f : α → Except Fault γ} {g : α → Except Fault δ}
    (h : y = x) (hf : ∀ a, Concur S (f a) (g a)) : Concur S (x >>= f) (y >>= g) := by
  subst h
  cases y with
  | ok a => exact hf a
  | error e => exact error rfl

theorem refl (x : Except Fault α) : Concur Eq x x := by
  cases x <;> rfl

theorem ite {c : Prop} [Decidable c] {x x' : Except Fault α} {y y' : Except Fault β}
    (hx : Concur R x y) (hx' : Concur R x' y') :
    Concur R (if c then x else x') (if c then y else y') := by
  split
  · exact hx
  · exact hx'

end Concur

/-! ## Tokens that differ in their places -/

/-- The tokens differ at most in where they stand. -/
structure Token.Alike (t t' : Token) : Prop where
  tag : t'.field "tag" = t.field "tag"
  value : t'.field "value" = t.field "value"
  /-- Both stand somewhere, or neither does. -/
  position : Concur (fun _ _ => True) (t.field "position") (t'.field "position")

/-- A token is like itself. -/
theorem Token.Alike.refl (t : Token) : Alike t t := by
  refine ⟨rfl, rfl, ?_⟩
  cases t.field "position" with
  | ok _ => trivial
  | error _ => exact .error rfl

/-- The position of a token is not compared. -/
theorem Token.Alike.make (tag : String) (value : Option Value) (position position' : Nat) :
    Alike (make tag value position) (make tag value position') := by
  cases value with
  | none => exact ⟨rfl, rfl, trivial⟩
  | some v => exact ⟨rfl, rfl, trivial⟩

/-- Lists of tokens that differ only in their places. -/
abbrev Rule.Abreast : List Token → List Token → Prop :=
  List.Forall₂ Token.Alike

/-- The same is read, and such lists are left. -/
inductive Rule.Alongside {α : Type} : α × List Token → α × List Token → Prop
  | mk (a : α) {rest rest' : List Token} : Abreast rest rest' → Alongside (a, rest) (a, rest')

/-- What follows goes on with tokens abreast. -/
theorem Concur.andThen {α γ δ : Type} {S : γ → δ → Prop} {x y : Except Fault (α × List Token)}
    {f : α × List Token → Except Fault γ} {g : α × List Token → Except Fault δ}
    (hx : Concur Rule.Alongside x y)
    (hf : ∀ a rest rest', Rule.Abreast rest rest' → Concur S (f (a, rest)) (g (a, rest'))) :
    Concur S (x >>= f) (y >>= g) := by
  refine hx.bind ?_
  rintro _ _ ⟨a, hrest⟩
  exact hf a _ _ hrest

namespace Rule

open Token (headTag Is)

/-! ### Single tokens -/

section Tokens

variable {ts ts' : List Token} (hts : Abreast ts ts')
include hts

/-- Tags do not tell the places, -/
theorem headTag_alike : headTag ts' = headTag ts := by
  cases hts with
  | nil => rfl
  | cons ht _ => exact ht.tag

theorem nextIs_alike (tag : String) : nextIs tag ts' = nextIs tag ts := by
  rw [nextIs, headTag_alike hts, nextIs]

/-- nor do values. -/
theorem headValue_alike : headValue ts' = headValue ts := by
  cases hts with
  | nil => rfl
  | cons ht _ => exact ht.value

theorem skip_concurs (tag : String) : Concur Abreast (skip tag ts) (skip tag ts') :=
  .same (nextIs_alike hts tag) fun _ => .ite (.pure (List.forall₂_drop 1 hts)) (.error rfl)

theorem demand_concurs (tag what : String) :
    Concur Abreast (demand tag what ts) (demand tag what ts') :=
  .same (nextIs_alike hts tag) fun _ => .ite (.pure (List.forall₂_drop 1 hts)) (.error rfl)

/-- As many semicolons are skipped on both sides. -/
theorem skipSemicolons_concurs : Concur Abreast (skipSemicolons ts) (skipSemicolons ts') := by
  induction hts with
  | nil => exact .error rfl
  | cons ht hts ih => exact .same ht.tag fun _ => .ite ih (.pure (.cons ht hts))

theorem readLeaf_concurs (st : Stage) (tag : String) :
    Concur Alongside (readLeaf st tag ts) (readLeaf st tag ts') :=
  .same (headValue_alike hts) fun _ => .pure (.mk _ (List.forall₂_drop 1 hts))

theorem parameter_concurs (st : Stage) : Concur Alongside (parameter st ts) (parameter st ts') :=
  .same (nextIs_alike hts _) fun _ => .ite (readLeaf_concurs hts st _) (.error rfl)

end Tokens

section Concurs

variable {st : Stage} {rule : Rule → List Token → Reading} {ts ts' : List Token}
  (h : ∀ r ts ts', Abreast ts ts' → Concur Alongside (rule r ts) (rule r ts'))
include h

/-! ### Repetition -/

/-- The same operators are met, and the same operands read. -/
theorem leftward_concurs {operand : Rule} {operators : List String} :
    ∀ (n : Nat) (left : Tree) {ts ts' : List Token}, Abreast ts ts' →
      Concur Alongside (leftward st rule operand operators n left ts)
        (leftward st rule operand operators n left ts')
  | 0, _, _, _, _ => .error rfl
  | n + 1, left, ts, ts', hts => by
    unfold leftward
    refine .same (headTag_alike hts) fun tag => ?_
    cases tag with
    | text tag =>
      refine .ite ?_ (.pure (.mk _ hts))
      refine (h operand _ _ (List.forall₂_drop 1 hts)).andThen fun right _ _ hrest => ?_
      exact leftward_concurs n _ hrest
    | null | bool | int | float | list | record => exact .pure (.mk _ hts)

/-- The same argument lists. -/
theorem calls_concurs : ∀ (n : Nat) (callee : Tree) {ts ts' : List Token}, Abreast ts ts' →
    Concur Alongside (calls st rule n callee ts) (calls st rule n callee ts')
  | 0, _, _, _, _ => .error rfl
  | n + 1, callee, ts, ts', hts => by
    unfold calls
    refine .same (nextIs_alike hts _) fun _ => .ite ?_ (.pure (.mk _ hts))
    exact (h .expressionList _ _ hts).andThen fun _ _ _ hrest => calls_concurs n _ hrest

/-- The same statements of a block. -/
theorem moreStatements_concurs : ∀ (n : Nat) {ts ts' : List Token}, Abreast ts ts' →
    Concur Alongside (moreStatements rule n ts) (moreStatements rule n ts')
  | 0, _, _, _ => .error rfl
  | n + 1, ts, ts', hts => by
    unfold moreStatements
    refine .same (nextIs_alike hts _) fun _ => .ite ?_ (.pure (.mk _ hts))
    refine .bind (skipSemicolons_concurs hts) fun ts₁ ts₁' h₁ => ?_
    refine .same (nextIs_alike h₁ _) fun _ => .ite (moreStatements_concurs n h₁) ?_
    refine (h .statement _ _ h₁).andThen fun s ts₂ ts₂' h₂ => ?_
    refine .same (nextIs_alike h₂ _) fun _ => .same (nextIs_alike h₂ _) fun _ => ?_
    refine .ite (.error rfl) ?_
    exact (moreStatements_concurs n h₂).andThen fun _ _ _ h₃ => .pure (.mk _ h₃)

theorem moreExpressions_concurs : ∀ (n : Nat) {ts ts' : List Token}, Abreast ts ts' →
    Concur Alongside (moreExpressions rule n ts) (moreExpressions rule n ts')
  | 0, _, _, _ => .error rfl
  | n + 1, ts, ts', hts => by
    unfold moreExpressions
    refine .same (nextIs_alike hts _) fun _ => .ite ?_ (.pure (.mk _ hts))
    refine (h .expression _ _ (List.forall₂_drop 1 hts)).andThen fun _ _ _ h₁ => ?_
    exact (moreExpressions_concurs n h₁).andThen fun _ _ _ h₂ => .pure (.mk _ h₂)

omit h in
theorem moreParameters_concurs : ∀ (n : Nat) {ts ts' : List Token}, Abreast ts ts' →
    Concur Alongside (moreParameters st n ts) (moreParameters st n ts')
  | 0, _, _, _ => .error rfl
  | n + 1, ts, ts', hts => by
    unfold moreParameters
    refine .same (nextIs_alike hts _) fun _ => .ite ?_ (.pure (.mk _ hts))
    refine (parameter_concurs (List.forall₂_drop 1 hts) st).andThen fun _ _ _ h₁ => ?_
    exact (moreParameters_concurs n h₁).andThen fun _ _ _ h₂ => .pure (.mk _ h₂)

/-! ### The rules -/

variable (hts : Abreast ts ts')
include hts

/-- The same first token, so the same alternative. -/
theorem readSimple_concurs (operand : Rule) :
    Concur Alongside (readSimple st rule operand ts) (readSimple st rule operand ts') := by
  have hleaf := fun tag => readLeaf_concurs hts st tag
  have hdrop := List.forall₂_drop 1 hts
  refine .same (headTag_alike hts) fun _ => .ite (hleaf _) (.ite (hleaf _) (.ite (hleaf _)
    (.ite ?_ (.ite ?_ (.ite (h .functionLiteral _ _ hts) (.error rfl))))))
  · refine (h _ _ _ hdrop).andThen fun _ _ _ hrest => .same (nextIs_alike hrest _) ?_
    exact fun _ => .ite (.pure (.mk _ (List.forall₂_drop 1 hrest))) (.error rfl)
  · exact (h operand _ _ hdrop).andThen fun _ _ _ hrest => .pure (.mk _ hrest)

/-- At `functions` the token behind a name decides whether it is called. -/
theorem readFactor_concurs : Concur Alongside (readFactor st rule ts) (readFactor st rule ts') := by
  cases st with
  | returns => exact h .callable _ _ hts
  | functions =>
    refine .same (nextIs_alike hts _) fun _ => .ite ?_ (readSimple_concurs h hts _)
    refine (readLeaf_concurs hts _ _).andThen fun _ _ _ h₁ => ?_
    refine .same (nextIs_alike h₁ _) fun _ => .ite ?_ (.pure (.mk _ h₁))
    exact (h .expressionList _ _ h₁).andThen fun _ _ _ h₂ => .pure (.mk _ h₂)
  | expressions | assignments | booleans | conditions | blocks | scopes =>
    exact readSimple_concurs h hts _

theorem readCondition_concurs (closing : String) :
    Concur Alongside (readCondition rule closing ts) (readCondition rule closing ts') := by
  refine .bind (demand_concurs hts _ _) fun _ _ h₁ => ?_
  refine (h .expression _ _ h₁).andThen fun _ _ _ h₂ => ?_
  exact .bind (demand_concurs h₂ _ _) fun _ _ h₃ => .pure (.mk _ h₃)

/-- The same `else`, or none. -/
theorem readIf_concurs : Concur Alongside (readIf st rule ts) (readIf st rule ts') := by
  refine .bind (skip_concurs hts _) fun _ _ h₁ => ?_
  refine (readCondition_concurs h h₁ _).andThen fun _ _ _ h₂ => ?_
  refine (h .statement _ _ h₂).andThen fun _ _ _ h₃ => .ite ?_ (.pure (.mk _ h₃))
  refine .same (nextIs_alike h₃ _) fun _ => .ite ?_ (.pure (.mk _ h₃))
  refine (h .statement _ _ (List.forall₂_drop 1 h₃)).andThen fun _ _ _ h₄ => ?_
  exact .pure (.mk _ h₄)

theorem readBlock_concurs (n : Nat) :
    Concur Alongside (readBlock rule n ts) (readBlock rule n ts') := by
  refine .bind (skip_concurs hts _) fun _ _ h₁ => .bind (skipSemicolons_concurs h₁) fun _ _ h₂ => ?_
  refine .same (nextIs_alike h₂ _) fun _ => .ite (.pure (.mk _ (List.forall₂_drop 1 h₂))) ?_
  refine (h .statement _ _ h₂).andThen fun _ _ _ h₃ => ?_
  refine (moreStatements_concurs h n h₃).andThen fun _ _ _ h₄ => ?_
  exact .bind (skip_concurs h₄ _) fun _ _ h₅ => .pure (.mk _ h₅)

omit h in
theorem readNameList_concurs (n : Nat) :
    Concur Alongside (readNameList st n ts) (readNameList st n ts') := by
  refine .bind (skip_concurs hts _) fun _ _ h₁ => ?_
  refine .same (nextIs_alike h₁ _) fun _ => .ite (.pure (.mk _ (List.forall₂_drop 1 h₁))) ?_
  refine (parameter_concurs h₁ st).andThen fun _ _ _ h₂ => ?_
  refine (moreParameters_concurs n h₂).andThen fun _ _ _ h₃ => ?_
  exact .bind (skip_concurs h₃ _) fun _ _ h₄ => .pure (.mk _ h₄)

theorem readExpressionList_concurs (n : Nat) :
    Concur Alongside (readExpressionList rule n ts) (readExpressionList rule n ts') := by
  refine .bind (skip_concurs hts _) fun _ _ h₁ => ?_
  refine .same (nextIs_alike h₁ _) fun _ => .ite (.pure (.mk _ (List.forall₂_drop 1 h₁))) ?_
  refine (h .expression _ _ h₁).andThen fun _ _ _ h₂ => ?_
  refine (moreExpressions_concurs h n h₂).andThen fun _ _ _ h₃ => ?_
  exact .bind (skip_concurs h₃ _) fun _ _ h₄ => .pure (.mk _ h₄)

/-- Both start with a name, or neither does. -/
theorem readAssignment_concurs :
    Concur Alongside (readAssignment st rule ts) (readAssignment st rule ts') := by
  refine .same (nextIs_alike hts _) fun _ => .ite (.error rfl) ?_
  refine .same (headValue_alike hts) fun _ => ?_
  refine .bind (demand_concurs (List.forall₂_drop 1 hts) _ _) fun _ _ h₁ => ?_
  exact (h .expression _ _ h₁).andThen fun _ _ _ h₂ => .pure (.mk _ h₂)

/-- The sign that is made up stands where the keyword stands, so the two are alike again. -/
theorem readFunctionStatement_concurs :
    Concur Alongside (readFunctionStatement st rule ts) (readFunctionStatement st rule ts') := by
  refine .bind (skip_concurs hts _) fun _ _ _ => ?_
  refine .bind (skip_concurs (List.forall₂_drop 1 hts) _) fun _ _ _ => ?_
  cases hts with
  | nil => exact .error rfl
  | cons hkeyword hrest =>
    cases hrest with
    | nil => exact .error rfl
    | cons hname hrest =>
      refine hkeyword.position.bind fun position position' _ => h .assignment _ _ ?_
      exact .cons hname (.cons ⟨rfl, rfl, trivial⟩ (.cons hkeyword hrest))

/-- One or two tokens choose the rule; they have the same tags. -/
theorem readStatement_concurs :
    Concur Alongside (readStatement st rule ts) (readStatement st rule ts') := by
  have hrule := fun r => h r _ _ hts
  have hsecond := nextIs_alike (List.forall₂_drop 1 hts)
  refine .same (headTag_alike hts) fun _ => .ite (hrule _) (.ite (hrule _) (.ite ?_
    (.ite (hrule _) (.ite (hrule _) (.ite (hrule _) (.ite ?_ (hrule _)))))))
  · exact .same (hsecond _) fun _ => .ite (hrule _) (hrule _)
  · exact .same (hsecond _) fun _ => .ite (hrule _) (hrule _)

/-- One application of a rule does not depend on the places. -/
theorem step_concurs (n : Nat) (r : Rule) :
    Concur Alongside (step st rule n r ts) (step st rule n r ts') := by
  -- the five levels of operators
  have hleveled : ∀ operand operators, Concur Alongside
      (readLeftward st rule n operand operators ts)
      (readLeftward st rule n operand operators ts') :=
    fun operand _ => (h operand _ _ hts).andThen fun _ _ _ hrest => leftward_concurs h n _ hrest
  cases r with
  | statement => exact readStatement_concurs h hts
  | ifStatement => exact readIf_concurs h hts
  -- a rule that is used inside concurs by `h`, and the tokens behind it are abreast again
  | whileStatement =>
    refine .bind (skip_concurs hts _) fun _ _ h₁ => ?_
    refine (readCondition_concurs h h₁ _).andThen fun _ _ _ h₂ => ?_
    exact (h .statement _ _ h₂).andThen fun _ _ _ h₃ => .pure (.mk _ h₃)
  | blockStatement => exact readBlock_concurs h hts n
  | returnStatement =>
    refine .bind (skip_concurs hts _) fun _ _ h₁ => .same (headTag_alike h₁) fun _ => ?_
    refine .ite (.pure (.mk _ h₁)) ?_
    exact (h .expression _ _ h₁).andThen fun _ _ _ h₂ => .pure (.mk _ h₂)
  | printStatement =>
    refine .bind (skip_concurs hts _) fun _ _ h₁ => ?_
    exact (h .expressionList _ _ h₁).andThen fun _ _ _ h₂ => .pure (.mk _ h₂)
  | functionStatement => exact readFunctionStatement_concurs h hts
  | assignment => exact readAssignment_concurs h hts
  | expression => exact h _ _ _ hts
  | disjunction | conjunction | comparison | sum | product => exact hleveled _ _
  | negation =>
    refine .same (nextIs_alike hts _) fun _ => .ite ?_ (h .comparison _ _ hts)
    exact (h .negation _ _ (List.forall₂_drop 1 hts)).andThen fun _ _ _ h₁ => .pure (.mk _ h₁)
  | factor => exact readFactor_concurs h hts
  | callable =>
    exact (h .simple _ _ hts).andThen fun _ _ _ h₁ => calls_concurs h n _ h₁
  | simple => exact readSimple_concurs h hts _
  | functionLiteral =>
    refine .bind (skip_concurs hts _) fun _ _ h₁ => ?_
    refine (h .nameList _ _ h₁).andThen fun _ _ _ h₂ => ?_
    exact (h .blockStatement _ _ h₂).andThen fun _ _ _ h₃ => .pure (.mk _ h₃)
  | nameList => exact readNameList_concurs hts n
  | expressionList => exact readExpressionList_concurs h hts n

end Concurs

/-- **A rule gives the same wherever the tokens stand.** -/
theorem apply_concurs (st : Stage) : ∀ (n : Nat) (r : Rule) (ts ts' : List Token),
    Abreast ts ts' → Concur Alongside (apply st n r ts) (apply st n r ts')
  | 0, _, _, _, _ => .error rfl
  | n + 1, r, _, _, hts => step_concurs (apply_concurs st n) hts n r

/-- A rule gives the same tree on tokens abreast, or fails in the same way. -/
theorem read_concurs (st : Stage) (r : Rule) {ts ts' : List Token} (hts : Abreast ts ts') :
    Concur Alongside (r.read st ts) (r.read st ts') := by
  rw [Rule.read, Rule.read, ← hts.length_eq]
  exact apply_concurs st _ r _ _ hts

/-- A function statement is an assignment, with a sign at the place of the keyword. -/
theorem read_statement_of_function {st : Stage} (hst : st.has .functions = true)
    {keyword name : Token} {position : Value} (hkeyword : Is "function" keyword)
    (hposition : keyword.field "position" = .ok position) (hname : Is st.nameTag name)
    (rest : List Token) :
    statement.read st (keyword :: name :: rest) = assignment.read st (name ::
      .record [("tag", .text "="), ("position", position)] :: keyword :: rest) := by
  have hstatement : statement.read st (keyword :: name :: rest) =
      functionStatement.read st (keyword :: name :: rest) := by
    rw [read_eq]
    simp [step, readStatement, headTag_of_is hkeyword, nextIs_of_is hname, Value.isText, hst]
  rw [hstatement, read_functionStatement_eq hkeyword hposition hname]

/-- `function name …` and `name = function …` are read alike, whatever follows. -/
theorem read_definition {st : Stage} (hst : st.has .functions = true) (name : Value)
    (p p' q q' q'' : Nat) {rest rest' : List Token} (hrest : Abreast rest rest') :
    Concur Alongside
      (statement.read st (.make "function" none p :: .make st.nameTag (some name) p' :: rest))
      (statement.read st (.make st.nameTag (some name) q :: .make "=" none q' ::
        .make "function" none q'' :: rest')) := by
  have hassignments : st.has .assignments = true := Stage.has_of_rank_le hst (by decide)
  obtain ⟨hkeyword, hposition⟩ := Token.fields_make "function" none p
  have hname := fun position => (Token.fields_make st.nameTag (some name) position).1
  have hsign := (Token.fields_make "=" none q').1
  rw [read_statement_of_function hst hkeyword hposition (hname p'),
    read_statement_of_name hassignments (headTag_of_is (hname q)) (nextIs_of_is hsign)]
  exact read_concurs st .assignment
    (.cons (.make _ _ _ _) (.cons (.make "=" none _ _) (.cons (.make _ _ _ _) hrest)))

end Rule

/-- Trees do not depend on the places of tokens. -/
theorem parse_concurs (st : Stage) {ts ts' : List Token} (hts : Rule.Abreast ts ts') :
    Concur Eq (parse st ts) (parse st ts') := by
  have hending : Rule.Abreast (ts ++ [Token.ending]) (ts' ++ [Token.ending]) :=
    List.rel_append hts (.cons (.refl _) .nil)
  exact (Rule.read_concurs st _ hending).andThen fun _ _ _ _ => .pure rfl

/-- Tokens that are alike have the same tree. -/
theorem parse_alike {st : Stage} {ts ts' : List Token} {t : Tree} (hts : Rule.Abreast ts ts')
    (h : parse st ts = .ok t) : parse st ts' = .ok t := by
  have hconcur := parse_concurs st hts
  rw [h] at hconcur
  cases hparse : parse st ts' with
  | error e =>
    rw [hparse] at hconcur
    exact hconcur.elim
  | ok t' =>
    rw [hparse] at hconcur
    rw [show t = t' from hconcur]

/-- Runs a program text within a budget. -/
def Program.within (st : Stage) (n : Nat) (code : String) : Action Completion := do
  evaluate st n .statement (← Program.tree st code)

/-- **Layout never changes meaning.** At every stage two lists of tokens that agree in tags and
values have the same tree, or both fail, with faults of one family. So two texts with such tokens
do the same: within every budget and on every machine both give the same, or fail with faults of
one family, and leave the same environment and output. From `functions` on a statement
`function name …` is read as the statement `name = function …` is, whatever follows: the trees and
the tokens left behind are the same, or both fail in the same way. -/
theorem parse_ignores_places (st : Stage) :
    (∀ ts ts', List.Forall₂ Token.Alike ts ts' → Concur Eq (parse st ts) (parse st ts')) ∧
    (∀ a b ts ts', tokenize st a = .ok ts → tokenize st b = .ok ts' →
      List.Forall₂ Token.Alike ts ts' → ∀ n m,
        Concur Eq (Program.within st n a m).1 (Program.within st n b m).1 ∧
        (Program.within st n b m).2 = (Program.within st n a m).2) ∧
    (st.has .functions = true → ∀ (name : Value) (p p' q q' q'' : Nat) (rest rest' : List Token),
      List.Forall₂ Token.Alike rest rest' →
        Concur Rule.Alongside
          (Rule.statement.read st
            (.make "function" none p :: .make st.nameTag (some name) p' :: rest))
          (Rule.statement.read st (.make st.nameTag (some name) q :: .make "=" none q' ::
            .make "function" none q'' :: rest'))) := by
  refine ⟨fun ts ts' hts => parse_concurs st hts, fun a b ts ts' ha hb hts n m => ?_,
    fun hst name p p' q q' q'' rest rest' hrest =>
      Rule.read_definition hst name p p' q q' q'' hrest⟩
  -- the texts have the same tree, so the programs do the same
  have htrees := parse_concurs st hts
  rw [← Program.tree_eq_parse ha, ← Program.tree_eq_parse hb] at htrees
  unfold Program.within
  cases hta : Program.tree st a with
  | ok t =>
    cases htb : Program.tree st b with
    | ok t' =>
      rw [hta, htb] at htrees
      obtain rfl : t = t' := htrees
      exact ⟨.refl _, rfl⟩
    | error e =>
      rw [hta, htb] at htrees
      exact htrees.elim
  | error e =>
    cases htb : Program.tree st b with
    | ok t' =>
      rw [hta, htb] at htrees
      exact htrees.elim
    | error e' =>
      rw [hta, htb] at htrees
      exact ⟨htrees, rfl⟩

/-- An assignment with a comment behind it and one with more blanks, and a definition by statement
and by assignment, with the parameters at different places. -/
theorem parse_ignores_places_of_spaced :
    List.Forall₂ Token.Alike
      [Token.make "<identifier>" (some (.text "k")) 0, Token.make "=" none 1,
        Token.make "<number>" (some (.int 4)) 2]
      [Token.make "<identifier>" (some (.text "k")) 0, Token.make "=" none 2,
        Token.make "<number>" (some (.int 4)) 4] ∧
    (∀ n m, Concur Eq (Program.within .returns n "k=4//\n" m).1
        (Program.within .returns n "k =\t4" m).1 ∧
      (Program.within .returns n "k =\t4" m).2 = (Program.within .returns n "k=4//\n" m).2) ∧
    Concur Rule.Alongside
      (Rule.statement.read .returns [Token.make "function" none 0,
        Token.make "<identifier>" (some (.text "h")) 9, Token.make "(" none 10])
      (Rule.statement.read .returns [Token.make "<identifier>" (some (.text "h")) 0,
        Token.make "=" none 1, Token.make "function" none 2, Token.make "(" none 10]) := by
  obtain ⟨-, htexts, hdefinition⟩ := parse_ignores_places .returns
  have halike : List.Forall₂ Token.Alike
      [Token.make "<identifier>" (some (.text "k")) 0, Token.make "=" none 1,
        Token.make "<number>" (some (.int 4)) 2]
      [Token.make "<identifier>" (some (.text "k")) 0, Token.make "=" none 2,
        Token.make "<number>" (some (.int 4)) 4] :=
    .cons (.make _ _ _ _) (.cons (.make _ _ _ _) (.cons (.make _ _ _ _) .nil))
  exact ⟨halike, htexts _ _ _ _ (by rfl) (by rfl) halike,
    hdefinition rfl (.text "h") 0 9 0 1 2 _ _ (.cons (.make "(" none 10 10) .nil)⟩

end Stepwise
