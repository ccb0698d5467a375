import Stepwise.Tree.Parse

/-!
# The budget of the parser

The parser's budget never shows: `Rule.read` is a solution of the equation that
`Rule.step` states, with `Rule.read` itself for the rules inside a rule
(`Rule.read_eq`). Two facts make it so, each with one lemma for each reader of the
parser.

- `Rule.Extends x y`: `y` is what `x` is, unless `x` ran out of budget. A rule with
  a larger budget extends the same rule with a smaller one (`apply_extends`);
- `Rule.Concludes P x`: the reading `x` does not run out of budget, and what it
  gives has the property `P`. A rule concludes once it has 16 units for each token
  and `Rule.rank` units on top, and then it is past `Rule.least` tokens at least
  (`apply_concludes`).

The ranks bound how deep rules nest before a token is consumed. A function statement
needs a token's worth on top of them, since it hands on one token more than it got.
-/

namespace Stepwise.Rule

open Token (headTag)

/-! ## Readings with a larger budget -/

/-- `y` is what `x` is, wherever `x` does not run out of budget. -/
def Extends {α : Type} (x y : Except Fault α) : Prop :=
  x ≠ .error .exhausted → y = x

namespace Extends

variable {α β : Type}

theorem refl (x : Except Fault α) : Extends x x := fun _ => rfl

/-- Running out of budget is extended by everything. -/
theorem of_exhausted (y : Except Fault α) : Extends (.error .exhausted) y :=
  fun h => absurd rfl h

/-- A sequence is extended by a sequence of extended parts. -/
theorem bind {x y : Except Fault α} {f g : α → Except Fault β} (hx : Extends x y)
    (hf : ∀ a, Extends (f a) (g a)) : Extends (x >>= f) (y >>= g) := by
  intro h
  cases x with
  | ok a =>
    have hy : y = .ok a := hx (by simp)
    subst hy
    exact hf a h
  | error e =>
    -- the fault is that of the sequence, so it is not the budget's
    have hy : y = .error e := hx (by rintro ⟨⟩; exact h rfl)
    subst hy
    rfl

theorem ite {c : Prop} [Decidable c] {x y x' y' : Except Fault α} (h : Extends x y)
    (h' : Extends x' y') : Extends (if c then x else x') (if c then y else y') := by
  split
  · exact h
  · exact h'

end Extends

section Extends

variable {st : Stage} {rule rule' : Rule → List Token → Reading} {ts : List Token}
  (h : ∀ r ts, Extends (rule r ts) (rule' r ts))
include h

/-! ### Repetition

The rules of a loop and the number of its rounds may both have a larger budget. -/

/-- Operators of one level: with more budget for each round and for their number. -/
theorem leftward_extends {operand : Rule} {operators : List String} :
    ∀ {n k : Nat}, n ≤ k → ∀ (left : Tree) (ts : List Token),
      Extends (leftward st rule operand operators n left ts)
        (leftward st rule' operand operators k left ts)
  | 0, _, _, _, _ => .of_exhausted _
  | n + 1, k + 1, hnk, left, ts => by
    unfold leftward
    refine .bind (.refl _) fun tag => ?_
    cases tag with
    | text tag =>
      refine .ite (.bind (h operand _) fun _ => ?_) (.refl _)
      exact leftward_extends (Nat.le_of_succ_le_succ hnk) _ _
    | null | bool | int | float | list | record => exact .refl _

/-- Argument lists behind a callee. -/
theorem calls_extends : ∀ {n k : Nat}, n ≤ k → ∀ (callee : Tree) (ts : List Token),
    Extends (calls st rule n callee ts) (calls st rule' k callee ts)
  | 0, _, _, _, _ => .of_exhausted _
  | n + 1, k + 1, hnk, callee, ts => by
    unfold calls
    refine .bind (.refl _) fun _ => .ite (.bind (h .expressionList _) fun _ => ?_) (.refl _)
    exact calls_extends (Nat.le_of_succ_le_succ hnk) _ _

/-- The statements behind the first one of a block. -/
theorem moreStatements_extends : ∀ {n k : Nat}, n ≤ k → ∀ ts : List Token,
    Extends (moreStatements rule n ts) (moreStatements rule' k ts)
  | 0, _, _, _ => .of_exhausted _
  | n + 1, k + 1, hnk, ts => by
    have ih := moreStatements_extends (Nat.le_of_succ_le_succ hnk)
    unfold moreStatements
    refine .bind (.refl _) fun _ => .ite (.bind (.refl _) fun ts₁ => ?_) (.refl _)
    refine .bind (.refl _) fun _ => .ite (ih ts₁) (.bind (h .statement ts₁) fun _ => ?_)
    refine .bind (.refl _) fun _ => .bind (.refl _) fun _ => .ite (.refl _) ?_
    exact .bind (ih _) fun _ => .refl _

/-- The expressions behind the first one of a list. -/
theorem moreExpressions_extends : ∀ {n k : Nat}, n ≤ k → ∀ ts : List Token,
    Extends (moreExpressions rule n ts) (moreExpressions rule' k ts)
  | 0, _, _, _ => .of_exhausted _
  | n + 1, k + 1, hnk, ts => by
    unfold moreExpressions
    refine .bind (.refl _) fun _ => .ite (.bind (h .expression _) fun _ => ?_) (.refl _)
    exact .bind (moreExpressions_extends (Nat.le_of_succ_le_succ hnk) _) fun _ => .refl _

omit h in
/-- The parameters behind the first one of a list, which use no other rule. -/
theorem moreParameters_extends : ∀ {n k : Nat}, n ≤ k → ∀ ts : List Token,
    Extends (moreParameters st n ts) (moreParameters st k ts)
  | 0, _, _, _ => .of_exhausted _
  | n + 1, k + 1, hnk, ts => by
    unfold moreParameters
    refine .bind (.refl _) fun _ => .ite (.bind (.refl _) fun _ => ?_) (.refl _)
    exact .bind (moreParameters_extends (Nat.le_of_succ_le_succ hnk) _) fun _ => .refl _

/-! ### The rules -/

theorem readSimple_extends (operand : Rule) :
    Extends (readSimple st rule operand ts) (readSimple st rule' operand ts) := by
  refine .bind (.refl _) fun _ => .ite (.refl _) (.ite (.refl _) (.ite (.refl _) (.ite ?_
    (.ite ?_ (.ite (h .functionLiteral ts) (.refl _))))))
  · exact .bind (h _ _) fun _ => .refl _
  · exact .bind (h operand _) fun _ => .refl _

/-- Factors, with the call that a name can start at `functions`. -/
theorem readFactor_extends : Extends (readFactor st rule ts) (readFactor st rule' ts) := by
  cases st with
  | returns => exact h .callable ts
  | functions =>
    refine .bind (.refl _) fun _ => .ite (.bind (.refl _) fun _ => ?_) (readSimple_extends h _)
    exact .bind (.refl _) fun _ => .ite (.bind (h .expressionList _) fun _ => .refl _) (.refl _)
  | expressions | assignments | booleans | conditions | blocks | scopes =>
    exact readSimple_extends h _

/-- A first operand, and the operators behind it. -/
theorem readLeftward_extends {operand : Rule} {operators : List String} {n k : Nat}
    (hnk : n ≤ k) : Extends (readLeftward st rule n operand operators ts)
      (readLeftward st rule' k operand operators ts) :=
  .bind (h operand ts) fun _ => leftward_extends h hnk _ _

theorem readCondition_extends (closing : String) (ts : List Token) :
    Extends (readCondition rule closing ts) (readCondition rule' closing ts) :=
  .bind (.refl _) fun _ => .bind (h .expression _) fun _ => .refl _

/-- An `if`, with or without an `else`. -/
theorem readIf_extends : Extends (readIf st rule ts) (readIf st rule' ts) := by
  refine .bind (.refl _) fun ts₁ => .bind (readCondition_extends h _ ts₁) fun _ => ?_
  refine .bind (h .statement _) fun _ => .ite (.bind (.refl _) fun _ => ?_) (.refl _)
  exact .ite (.bind (h .statement _) fun _ => .refl _) (.refl _)

theorem readBlock_extends {n k : Nat} (hnk : n ≤ k) :
    Extends (readBlock rule n ts) (readBlock rule' k ts) := by
  refine .bind (.refl _) fun _ => .bind (.refl _) fun _ => .bind (.refl _) fun _ => ?_
  refine .ite (.refl _) (.bind (h .statement _) fun _ => ?_)
  exact .bind (moreStatements_extends h hnk _) fun _ => .refl _

theorem readExpressionList_extends {n k : Nat} (hnk : n ≤ k) :
    Extends (readExpressionList rule n ts) (readExpressionList rule' k ts) := by
  refine .bind (.refl _) fun _ => .bind (.refl _) fun _ => .ite (.refl _) ?_
  refine .bind (h .expression _) fun _ => ?_
  exact .bind (moreExpressions_extends h hnk _) fun _ => .refl _

/-- A function statement is read as an assignment. -/
theorem readFunctionStatement_extends :
    Extends (readFunctionStatement st rule ts) (readFunctionStatement st rule' ts) := by
  refine .bind (.refl _) fun _ => .bind (.refl _) fun _ => ?_
  match ts with
  | [] | [_] => exact .refl _
  | _ :: _ :: _ => exact .bind (.refl _) fun _ => h .assignment _

/-- Every rule that a first token can choose. -/
theorem readStatement_extends : Extends (readStatement st rule ts) (readStatement st rule' ts) := by
  have hexpression := h .expression ts
  refine .bind (.refl _) fun _ => .ite (h .ifStatement ts) (.ite (h .whileStatement ts) (.ite ?_
    (.ite (h .returnStatement ts) (.ite (h .printStatement ts) (.ite (h .blockStatement ts)
      (.ite ?_ hexpression))))))
  · exact .bind (.refl _) fun _ => .ite (h .functionStatement ts) hexpression
  · exact .bind (.refl _) fun _ => .ite (h .assignment ts) hexpression

/-- One application of a rule respects the order of budgets. -/
theorem step_extends {n k : Nat} (hnk : n ≤ k) (r : Rule) (ts : List Token) :
    Extends (step st rule n r ts) (step st rule' k r ts) := by
  cases r with
  | statement => exact readStatement_extends h
  | ifStatement => exact readIf_extends h
  -- where a rule is used inside, `h` applies; all else is the same on both sides
  | whileStatement =>
    refine .bind (.refl _) fun ts₁ => .bind (readCondition_extends h _ ts₁) fun _ => ?_
    exact .bind (h .statement _) fun _ => .refl _
  | blockStatement => exact readBlock_extends h hnk
  | returnStatement =>
    refine .bind (.refl _) fun _ => .bind (.refl _) fun _ => .ite (.refl _) ?_
    exact .bind (h .expression _) fun _ => .refl _
  | printStatement => exact .bind (.refl _) fun _ => .bind (h .expressionList _) fun _ => .refl _
  | functionStatement => exact readFunctionStatement_extends h
  | assignment =>
    refine .bind (.refl _) fun _ => .ite (.refl _) ?_
    refine .bind (.refl _) fun _ => .bind (.refl _) fun _ => ?_
    exact .bind (h .expression _) fun _ => .refl _
  | expression => exact h _ ts
  -- five levels of operators, one lemma
  | disjunction | conjunction | comparison | sum | product => exact readLeftward_extends h hnk
  | negation =>
    refine .bind (.refl _) fun _ => .ite (.bind (h .negation _) fun _ => .refl _) ?_
    exact h .comparison ts
  | factor => exact readFactor_extends h
  | callable => exact .bind (h .simple ts) fun _ => calls_extends h hnk _ _
  | simple => exact readSimple_extends h _
  | functionLiteral =>
    refine .bind (.refl _) fun _ => .bind (h .nameList _) fun _ => ?_
    exact .bind (h .blockStatement _) fun _ => .refl _
  | nameList =>
    refine .bind (.refl _) fun _ => .bind (.refl _) fun _ => .ite (.refl _) ?_
    refine .bind (.refl _) fun _ => ?_
    exact .bind (moreParameters_extends hnk _) fun _ => .refl _
  | expressionList => exact readExpressionList_extends h hnk

end Extends

/-- **A rule with a larger budget extends the rule with a smaller one.** -/
theorem apply_extends (st : Stage) : ∀ {n k : Nat}, n ≤ k → ∀ (r : Rule) (ts : List Token),
    Extends (apply st n r ts) (apply st k r ts)
  | 0, _, _, _, _ => .of_exhausted _
  | _ + 1, _ + 1, hnk, r, ts =>
    step_extends (apply_extends st (Nat.le_of_succ_le_succ hnk)) (Nat.le_of_succ_le_succ hnk) r ts

/-! ## Readings that end by themselves -/

/-- The reading gives something with the property, or fails for a reason other than its
budget. -/
def Concludes {α : Type} (P : α → Prop) : Except Fault α → Prop
  | .ok a => P a
  | .error e => e ≠ .exhausted

namespace Concludes

variable {α β : Type} {P : α → Prop}

theorem pure {a : α} (h : P a) : Concludes P (pure a : Except Fault α) := h

/-- A fault is a conclusion, too, unless it is the budget's. -/
theorem error {e : Fault} (h : e ≠ .exhausted) : Concludes P (.error e : Except Fault α) := h

/-- A sequence concludes if both parts do. -/
theorem bind {Q : β → Prop} {x : Except Fault β} {f : β → Except Fault α} (hx : Concludes Q x)
    (hf : ∀ b, Q b → Concludes P (f b)) : Concludes P (x >>= f) := by
  cases x with
  | ok b => exact hf b hx
  | error e => exact hx

theorem ite {c : Prop} [Decidable c] {x y : Except Fault α} (hx : Concludes P x)
    (hy : Concludes P y) : Concludes P (if c then x else y) := by
  split
  · exact hx
  · exact hy

/-- A weaker property of the result. -/
theorem imp {Q : α → Prop} {x : Except Fault α} (hx : Concludes P x) (h : ∀ a, P a → Q a) :
    Concludes Q x := by
  cases x with
  | ok a => exact h a hx
  | error e => exact hx

theorem ne_exhausted {x : Except Fault α} (hx : Concludes P x) : x ≠ .error .exhausted := by
  rintro rfl
  exact hx rfl

end Concludes

/-- `rest` stands behind `k` tokens of `ts` at least. -/
structure Past (k : Nat) (ts rest : List Token) : Prop where
  suffix : rest <:+ ts
  length : rest.length + k ≤ ts.length

namespace Past

variable {ts mid rest : List Token} {j k : Nat}

theorem refl (ts : List Token) : Past 0 ts ts := ⟨List.suffix_refl ts, Nat.le_refl _⟩

/-- Past `j` tokens and then past `k` more. -/
theorem trans (h : Past j ts mid) (h' : Past k mid rest) : Past (j + k) ts rest := by
  have hj := h.length
  have hk := h'.length
  exact ⟨h'.suffix.trans h.suffix, by omega⟩

theorem mono (h : Past k ts rest) (hjk : j ≤ k) : Past j ts rest := by
  have hk := h.length
  exact ⟨h.suffix, by omega⟩

/-- One token is dropped, if there is one. -/
theorem drop_one (h : ts ≠ []) : Past 1 ts (ts.drop 1) := by
  have hlength := List.length_pos_iff.2 h
  refine ⟨List.drop_suffix 1 ts, ?_⟩
  rw [List.length_drop]
  omega

end Past

/-! ### Single tokens -/

/-- Asking for a field does not use the budget. -/
theorem field_concludes (name : String) (v : Value) :
    Concludes (fun _ => True) (v.field name) := by
  cases v with
  | record fields =>
    simp only [Value.field]
    cases Fields.get? name fields with
    | some v => trivial
    | none => exact Fault.noConfusion
  | null | bool | int | float | text | list => exact Fault.noConfusion

/-- A token whose tag has been looked at is there. -/
theorem headTag_concludes (ts : List Token) : Concludes (fun _ => ts ≠ []) (headTag ts) := by
  cases ts with
  | nil => exact Fault.noConfusion
  | cons t rest => exact (field_concludes "tag" t).imp fun _ _ => List.cons_ne_nil t rest

theorem nextIs_concludes (tag : String) (ts : List Token) :
    Concludes (fun _ => ts ≠ []) (nextIs tag ts) :=
  (headTag_concludes ts).bind fun _ hts => .pure hts

theorem headValue_concludes (ts : List Token) : Concludes (fun _ => True) (headValue ts) := by
  cases ts with
  | nil => exact Fault.noConfusion
  | cons t rest => exact field_concludes "value" t

theorem skip_concludes (tag : String) (ts : List Token) :
    Concludes (Past 1 ts) (skip tag ts) :=
  (nextIs_concludes tag ts).bind fun _ hts =>
    .ite (.pure (.drop_one hts)) (.error Fault.noConfusion)

theorem demand_concludes (tag what : String) (ts : List Token) :
    Concludes (Past 1 ts) (demand tag what ts) :=
  (nextIs_concludes tag ts).bind fun _ hts =>
    .ite (.pure (.drop_one hts)) (.error Fault.noConfusion)

/-- Skipping semicolons goes past none or more. -/
theorem skipSemicolons_concludes : ∀ ts : List Token,
    Concludes (Past 0 ts) (skipSemicolons ts)
  | [] => .error Fault.noConfusion
  | t :: rest => by
    refine (field_concludes "tag" t).bind fun _ _ => .ite ?_ (.pure (.refl _))
    have hrest : Past 0 (t :: rest) rest := ⟨List.suffix_cons t rest, by simp⟩
    exact (skipSemicolons_concludes rest).imp fun _ h => hrest.trans h

/-- A semicolon at the head is skipped. -/
theorem skipSemicolons_past {ts : List Token} (h : nextIs ";" ts = .ok true) :
    Concludes (Past 1 ts) (skipSemicolons ts) := by
  cases ts with
  | nil => cases h
  | cons t rest =>
    -- the semicolon itself is one token, and more may follow
    have hrest : Past 1 (t :: rest) rest := .drop_one (List.cons_ne_nil t rest)
    have hsemicolon : (do return (← t.field "tag").isText ";") = Except.ok true := h
    unfold skipSemicolons
    cases htag : t.field "tag" with
    | error e =>
      rw [htag] at hsemicolon
      cases hsemicolon
    | ok v =>
      rw [htag] at hsemicolon
      have hv : v.isText ";" = true := Except.ok.inj hsemicolon
      show Concludes _ (if v.isText ";" = true then skipSemicolons rest else pure (t :: rest))
      rw [if_pos hv]
      exact (skipSemicolons_concludes rest).imp fun _ h => hrest.trans h

theorem readLeaf_concludes (st : Stage) (tag : String) {ts : List Token} (hts : ts ≠ []) :
    Concludes (fun p => Past 1 ts p.2) (readLeaf st tag ts) :=
  (headValue_concludes ts).bind fun _ _ => .pure (.drop_one hts)

theorem parameter_concludes (st : Stage) (ts : List Token) :
    Concludes (fun p => Past 1 ts p.2) (parameter st ts) := by
  refine (nextIs_concludes _ ts).bind fun _ hts => .ite ?_ (.error Fault.noConfusion)
  exact readLeaf_concludes st _ hts

/-! ### Ranks -/

/-- Every use of a rule inside another that consumes no token goes down in rank. -/
def rank : Rule → Nat
  | .ifStatement | .whileStatement | .returnStatement | .printStatement | .assignment
  | .functionLiteral | .nameList | .expressionList => 0
  | .simple => 1
  | .callable => 2
  | .factor => 3
  | .blockStatement | .product => 4
  | .sum => 5
  | .comparison => 6
  | .negation => 7
  | .conjunction => 8
  | .disjunction => 9
  | .expression => 10
  | .functionStatement => 17
  | .statement => 18

/-- How many tokens a rule consumes at least. -/
def least : Rule → Nat
  | .assignment => 3
  | _ => 1

theorem least_pos (r : Rule) : 1 ≤ r.least := by
  cases r <;> decide

section Concludes

variable {st : Stage} {rule : Rule → List Token → Reading} {ts : List Token} {b : Nat}
  (h : ∀ r ts, 16 * ts.length + rank r < b → Concludes (fun p => Past r.least ts p.2) (rule r ts))
include h

/-- Whatever the rule, one token at least is consumed. -/
theorem rule_concludes (r : Rule) (hb : 16 * ts.length + rank r < b) :
    Concludes (fun p => Past 1 ts p.2) (rule r ts) :=
  (h r ts hb).imp fun _ hp => hp.mono r.least_pos

/-! ### Repetition

A round consumes a token, so no loop needs more rounds than there are tokens, and one more
to see that it is over. -/

/-- Each round takes an operator and an operand, so fewer rounds than tokens are needed. -/
theorem leftward_concludes {operand : Rule} {operators : List String} (hrank : rank operand < 16) :
    ∀ (n : Nat) (left : Tree) (ts : List Token), ts.length < n → 16 * ts.length ≤ b →
      Concludes (fun p => Past 0 ts p.2) (leftward st rule operand operators n left ts)
  | n + 1, left, ts, hn, hb => by
    unfold leftward
    refine (headTag_concludes ts).bind fun tag hts => ?_
    have hdrop := Past.drop_one hts
    have hlength := hdrop.length
    cases tag with
    | text tag =>
      refine .ite ?_ (.pure (.refl ts))
      -- the operand stands behind the operator, so the budget for it is large enough
      refine (rule_concludes h operand (by omega)).bind fun p hp => ?_
      have hpast := hdrop.trans hp
      have hrest := hpast.length
      refine (leftward_concludes hrank n _ p.2 (by omega) (by omega)).imp fun q hq => ?_
      exact (hpast.trans hq).mono (Nat.zero_le _)
    | null | bool | int | float | list | record => exact .pure (.refl ts)

/-- Each round takes an argument list, hence at least one token. -/
theorem calls_concludes : ∀ (n : Nat) (callee : Tree) (ts : List Token), ts.length < n →
    16 * ts.length < b → Concludes (fun p => Past 0 ts p.2) (calls st rule n callee ts)
  | n + 1, callee, ts, hn, hb => by
    unfold calls
    refine (nextIs_concludes "(" ts).bind fun _ _ => .ite ?_ (.pure (.refl ts))
    refine (rule_concludes h .expressionList hb).bind fun p hp => ?_
    have hrest := hp.length
    refine (calls_concludes n _ p.2 (by omega) (by omega)).imp fun q hq => ?_
    exact (hp.trans hq).mono (Nat.zero_le _)

/-- Each round takes a semicolon and a statement. -/
theorem moreStatements_concludes : ∀ (n : Nat) (ts : List Token), ts.length < n →
    16 * ts.length + 2 < b → Concludes (fun p => Past 0 ts p.2) (moreStatements rule n ts)
  | n + 1, ts, hn, hb => by
    have again : ∀ {k : Nat} {rest : List Token}, Past (k + 1) ts rest →
        Concludes (fun p => Past 0 ts p.2) (moreStatements rule n rest) := by
      intro k rest hrest
      have hk := hrest.length
      refine (moreStatements_concludes n rest (by omega) (by omega)).imp fun p hp => ?_
      exact (hrest.trans hp).mono (Nat.zero_le _)
    unfold moreStatements
    -- that the token is a semicolon matters: it makes the next round shorter
    cases hnext : nextIs ";" ts with
    | error e =>
      have he := nextIs_concludes ";" ts
      rw [hnext] at he
      exact he
    | ok v =>
      cases v with
      | false => exact .pure (.refl ts)
      | true =>
        refine (skipSemicolons_past hnext).bind fun ts₁ h₁ => ?_
        have hlength := h₁.length
        refine (nextIs_concludes "\x7d" ts₁).bind fun _ _ => .ite (again h₁) ?_
        refine (rule_concludes h .statement (by rw [rank]; omega)).bind fun p hp => ?_
        refine (nextIs_concludes _ p.2).bind fun _ _ => (nextIs_concludes _ p.2).bind fun _ _ => ?_
        refine .ite (.error Fault.noConfusion) ?_
        exact (again (h₁.trans hp)).bind fun _ hq => .pure hq

/-- Each round takes a comma and an expression. -/
theorem moreExpressions_concludes : ∀ (n : Nat) (ts : List Token), ts.length < n →
    16 * ts.length ≤ b → Concludes (fun p => Past 0 ts p.2) (moreExpressions rule n ts)
  | n + 1, ts, hn, hb => by
    unfold moreExpressions
    refine (nextIs_concludes "," ts).bind fun _ hts => .ite ?_ (.pure (.refl ts))
    have hdrop := Past.drop_one hts
    have hlength := hdrop.length
    refine (rule_concludes h .expression (by rw [rank]; omega)).bind fun p hp => ?_
    have hpast := hdrop.trans hp
    have hrest := hpast.length
    refine (moreExpressions_concludes n p.2 (by omega) (by omega)).bind fun q hq => .pure ?_
    exact (hpast.trans hq).mono (Nat.zero_le _)

omit h in
/-- Each round takes a comma and a name. -/
theorem moreParameters_concludes (st : Stage) : ∀ (n : Nat) (ts : List Token), ts.length < n →
    Concludes (fun p => Past 0 ts p.2) (moreParameters st n ts)
  | n + 1, ts, hn => by
    unfold moreParameters
    refine (nextIs_concludes "," ts).bind fun _ hts => .ite ?_ (.pure (.refl ts))
    have hdrop := Past.drop_one hts
    refine (parameter_concludes st (ts.drop 1)).bind fun p hp => ?_
    have hpast := hdrop.trans hp
    have hrest := hpast.length
    refine (moreParameters_concludes st n p.2 (by omega)).bind fun q hq => .pure ?_
    exact (hpast.trans hq).mono (Nat.zero_le _)

/-! ### Expressions -/

/-- A leaf, or a part behind the token that opens it: fewer tokens, so any rank will do. -/
theorem readSimple_concludes {operand : Rule} (hrank : rank operand < 16)
    (hb : 16 * ts.length < b) :
    Concludes (fun p => Past 1 ts p.2) (readSimple st rule operand ts) := by
  refine (headTag_concludes ts).bind fun _ hts => ?_
  have hdrop := Past.drop_one hts
  have hlength := hdrop.length
  -- the leaves need no budget
  have hleaf : ∀ tag, Concludes (fun p => Past 1 ts p.2) (readLeaf st tag ts) :=
    fun tag => readLeaf_concludes st tag hts
  refine .ite (hleaf _) (.ite (hleaf _) (.ite (hleaf _) (.ite ?_ (.ite ?_
    (.ite (rule_concludes h .functionLiteral hb) (.error Fault.noConfusion))))))
  -- in parentheses
  · have hinner : rank (if st.has .booleans && !st.has .returns then comparison else expression)
        < 16 := by
      split <;> decide
    refine (rule_concludes h _ (by omega)).bind fun p hp => (nextIs_concludes _ p.2).bind ?_
    intro _ hrest
    refine .ite (.pure ?_) (.error Fault.noConfusion)
    exact ((hdrop.trans hp).trans (.drop_one hrest)).mono (by omega)
  -- behind a minus
  · refine (rule_concludes h operand (by omega)).bind fun p hp => .pure ?_
    exact (hdrop.trans hp).mono (by omega)

/-- A factor of the last stage but one passes on to a name, a call or a simple expression. -/
theorem readFactor_concludes (hb : 16 * ts.length + 2 < b) :
    Concludes (fun p => Past 1 ts p.2) (readFactor st rule ts) := by
  have hsimple : Concludes (fun p => Past 1 ts p.2) (readSimple st rule .factor ts) :=
    readSimple_concludes h (by decide) (by omega)
  cases st with
  | returns => exact rule_concludes h .callable hb
  | functions =>
    refine (nextIs_concludes _ ts).bind fun _ hts => .ite ?_ hsimple
    refine (readLeaf_concludes _ _ hts).bind fun p hp => (nextIs_concludes _ p.2).bind fun _ _ => ?_
    have hrest := hp.length
    refine .ite ?_ (.pure hp)
    refine (rule_concludes h .expressionList (by rw [rank]; omega)).bind fun q hq => .pure ?_
    exact (hp.trans hq).mono (by omega)
  | expressions | assignments | booleans | conditions | blocks | scopes => exact hsimple

/-- The first operand is read from the same tokens, hence by a rule of lower rank. -/
theorem readLeftward_concludes {operand : Rule} {operators : List String}
    (hrank : rank operand < 16) (hb : 16 * ts.length + rank operand < b) {n : Nat}
    (hn : b ≤ n) :
    Concludes (fun p => Past 1 ts p.2) (readLeftward st rule n operand operators ts) := by
  refine (rule_concludes h operand hb).bind fun p hp => ?_
  have hrest := hp.length
  refine (leftward_concludes h hrank n _ p.2 (by omega) (by omega)).imp fun q hq => ?_
  exact hp.trans hq

/-! ### Lists and blocks -/

/-- A block takes its opening brace before it needs any rule. -/
theorem readBlock_concludes (hb : 16 * ts.length + 2 < b) {n : Nat} (hn : b ≤ n) :
    Concludes (fun p => Past 1 ts p.2) (readBlock rule n ts) := by
  refine (skip_concludes _ ts).bind fun ts₁ h₁ => (skipSemicolons_concludes ts₁).bind ?_
  intro ts₂ h₂
  have hpast := h₁.trans h₂
  have hlength := hpast.length
  refine (nextIs_concludes _ ts₂).bind fun _ hts => .ite (.pure ?_) ?_
  · exact (hpast.trans (.drop_one hts)).mono (by omega)
  · refine (rule_concludes h .statement (by rw [rank]; omega)).bind fun p hp => ?_
    have hrest := hp.length
    refine (moreStatements_concludes h n p.2 (by omega) (by omega)).bind fun q hq => ?_
    refine (skip_concludes _ q.2).bind fun rest hskip => .pure ?_
    exact (((hpast.trans hp).trans hq).trans hskip).mono (by omega)

omit h in
/-- A list of names needs no other rule. -/
theorem readNameList_concludes {n : Nat} (hn : ts.length ≤ n) :
    Concludes (fun p => Past 1 ts p.2) (readNameList st n ts) := by
  refine (skip_concludes _ ts).bind fun ts₁ h₁ => (nextIs_concludes _ ts₁).bind fun _ hts => ?_
  refine .ite (.pure ((h₁.trans (.drop_one hts)).mono (by omega))) ?_
  refine (parameter_concludes st ts₁).bind fun p hp => ?_
  have hpast := h₁.trans hp
  have hrest := hpast.length
  refine (moreParameters_concludes st n p.2 (by omega)).bind fun q hq => ?_
  refine (skip_concludes _ q.2).bind fun rest hskip => .pure ?_
  exact ((hpast.trans hq).trans hskip).mono (by omega)

/-- A list of expressions takes its parenthesis first. -/
theorem readExpressionList_concludes (hb : 16 * ts.length ≤ b) {n : Nat} (hn : b ≤ n) :
    Concludes (fun p => Past 1 ts p.2) (readExpressionList rule n ts) := by
  refine (skip_concludes _ ts).bind fun ts₁ h₁ => (nextIs_concludes _ ts₁).bind fun _ hts => ?_
  refine .ite (.pure ((h₁.trans (.drop_one hts)).mono (by omega))) ?_
  have hlength := h₁.length
  refine (rule_concludes h .expression (by rw [rank]; omega)).bind fun p hp => ?_
  have hpast := h₁.trans hp
  have hrest := hpast.length
  refine (moreExpressions_concludes h n p.2 (by omega) (by omega)).bind fun q hq => ?_
  refine (skip_concludes _ q.2).bind fun rest hskip => .pure ?_
  exact ((hpast.trans hq).trans hskip).mono (by omega)

/-! ### Statements -/

/-- A condition takes its parenthesis first. -/
theorem readCondition_concludes (closing : String) (hb : 16 * ts.length < b) :
    Concludes (fun p => Past 1 ts p.2) (readCondition rule closing ts) := by
  refine (demand_concludes _ _ ts).bind fun ts₁ h₁ => ?_
  have hlength := h₁.length
  refine (rule_concludes h .expression (by rw [rank]; omega)).bind fun p hp => ?_
  refine (demand_concludes _ _ p.2).bind fun rest hdemand => .pure ?_
  exact ((h₁.trans hp).trans hdemand).mono (by omega)

/-- The statements of an `if` are behind its keyword and its condition. -/
theorem readIf_concludes (hb : 16 * ts.length ≤ b) :
    Concludes (fun p => Past 1 ts p.2) (readIf st rule ts) := by
  refine (skip_concludes _ ts).bind fun ts₁ h₁ => ?_
  have hlength := h₁.length
  refine (readCondition_concludes h _ (by omega)).bind fun p hp => ?_
  have hcondition := h₁.trans hp
  have hrest := hcondition.length
  refine (rule_concludes h .statement (by rw [rank]; omega)).bind fun q hq => ?_
  have hconsequence : Past 1 ts q.2 := (hcondition.trans hq).mono (by omega)
  refine .ite ?_ (.pure hconsequence)
  refine (nextIs_concludes _ q.2).bind fun _ hts => .ite ?_ (.pure hconsequence)
  have helse := hconsequence.trans (.drop_one hts)
  have hbehind := helse.length
  refine (rule_concludes h .statement (by rw [rank]; omega)).bind fun a ha => .pure ?_
  exact (helse.trans ha).mono (by omega)

/-- The statement of a loop is behind its keyword and its condition. -/
theorem readWhile_concludes (hb : 16 * ts.length ≤ b) :
    Concludes (fun p => Past 1 ts p.2) (readWhile st rule ts) := by
  refine (skip_concludes _ ts).bind fun ts₁ h₁ => ?_
  have hlength := h₁.length
  refine (readCondition_concludes h _ (by omega)).bind fun p hp => ?_
  have hcondition := h₁.trans hp
  have hrest := hcondition.length
  refine (rule_concludes h .statement (by rw [rank]; omega)).bind fun q hq => .pure ?_
  exact (hcondition.trans hq).mono (by omega)

theorem readReturn_concludes (hb : 16 * ts.length ≤ b) :
    Concludes (fun p => Past 1 ts p.2) (readReturn rule ts) := by
  refine (skip_concludes _ ts).bind fun ts₁ h₁ => (headTag_concludes ts₁).bind fun _ _ => ?_
  have hlength := h₁.length
  refine .ite (.pure h₁) ?_
  refine (rule_concludes h .expression (by rw [rank]; omega)).bind fun p hp => .pure ?_
  exact (h₁.trans hp).mono (by omega)

/-- An assignment takes a name, a sign and an expression: three tokens at least. -/
theorem readAssignment_concludes (hb : 16 * ts.length ≤ b) :
    Concludes (fun p => Past 3 ts p.2) (readAssignment st rule ts) := by
  refine (nextIs_concludes _ ts).bind fun _ hts => .ite (.error Fault.noConfusion) ?_
  refine (headValue_concludes ts).bind fun _ _ => (demand_concludes _ _ _).bind fun ts₁ h₁ => ?_
  have hpast := (Past.drop_one hts).trans h₁
  have hlength := hpast.length
  refine (rule_concludes h .expression (by rw [rank]; omega)).bind fun p hp => .pure ?_
  exact hpast.trans hp

/-- The assignment is past the two tokens in front, and past the keyword behind them. -/
theorem readFunctionStatement_concludes (hb : 16 * ts.length + 16 < b) :
    Concludes (fun p => Past 1 ts p.2) (readFunctionStatement st rule ts) := by
  refine (skip_concludes _ ts).bind fun _ _ => (skip_concludes _ _).bind fun _ _ => ?_
  match ts with
  | [] | [_] => exact .error Fault.noConfusion
  | keyword :: name :: rest =>
    refine (field_concludes _ keyword).bind fun position _ => ?_
    refine (h .assignment _ ?_).imp fun p hp => ?_
    -- the sign makes the tokens one more, which a lower rank cannot make up for: hence the margin
    -- of 16
    · simp only [List.length_cons] at hb ⊢
      rw [rank]
      omega
    -- of the four tokens in front at least three are taken, the new sign among them
    · have hlength : p.2.length ≤ rest.length := by simpa [least] using hp.length
      have hrest : rest <:+ keyword :: name :: rest := List.suffix_append [keyword, name] rest
      have hsuffix : p.2 <:+ rest := List.suffix_of_suffix_length_le hp.suffix
        (List.suffix_append [name, .record [("tag", .text "="), ("position", position)], keyword]
          rest) hlength
      exact ⟨hsuffix.trans hrest, by simp; omega⟩

/-- The rules that the first token chooses have lower ranks than the rule of statements. -/
theorem readStatement_concludes (hb : 16 * ts.length + 17 < b) :
    Concludes (fun p => Past 1 ts p.2) (readStatement st rule ts) := by
  have hrule : ∀ r : Rule, rank r ≤ 17 → Concludes (fun p => Past 1 ts p.2) (rule r ts) :=
    fun r hr => rule_concludes h r (by omega)
  have hexpression := hrule .expression (by decide)
  refine (headTag_concludes ts).bind fun _ _ => .ite (hrule .ifStatement (by decide))
    (.ite (hrule .whileStatement (by decide)) (.ite ?_ (.ite (hrule .returnStatement (by decide))
      (.ite (hrule .printStatement (by decide)) (.ite (hrule .blockStatement (by decide))
        (.ite ?_ hexpression))))))
  · refine (nextIs_concludes _ _).bind fun _ _ => .ite ?_ hexpression
    exact hrule .functionStatement (by decide)
  · refine (nextIs_concludes _ _).bind fun _ _ => .ite ?_ hexpression
    exact hrule .assignment (by decide)

/-- One application of a rule concludes, if the rules inside it do on fewer tokens or at a
lower rank. -/
theorem step_concludes (r : Rule) (hb : 16 * ts.length + rank r ≤ b) {n : Nat} (hn : b ≤ n) :
    Concludes (fun p => Past r.least ts p.2) (step st rule n r ts) := by
  cases r <;> rw [rank] at hb
  case statement => exact readStatement_concludes h (by omega)
  case ifStatement => exact readIf_concludes h (by omega)
  case whileStatement => exact readWhile_concludes h (by omega)
  case blockStatement => exact readBlock_concludes h (by omega) hn
  case returnStatement => exact readReturn_concludes h (by omega)
  case printStatement =>
    refine (skip_concludes _ ts).bind fun ts₁ h₁ => ?_
    have hlength := h₁.length
    refine (rule_concludes h .expressionList (by rw [rank]; omega)).bind fun p hp => .pure ?_
    exact (h₁.trans hp).mono (by decide)
  case functionStatement => exact readFunctionStatement_concludes h (by omega)
  case assignment => exact readAssignment_concludes h (by omega)
  case expression =>
    refine rule_concludes h _ ?_
    have hrank : rank (if st.has .booleans then disjunction else sum) < 10 := by
      split <;> decide
    omega
  case disjunction => exact readLeftward_concludes h (by decide) (by rw [rank]; omega) hn
  case conjunction => exact readLeftward_concludes h (by decide) (by rw [rank]; omega) hn
  -- behind `!` one token is gone; without it the rank is lower
  case negation =>
    refine (nextIs_concludes _ ts).bind fun _ hts => .ite ?_ ?_
    · have hdrop := Past.drop_one hts
      have hlength := hdrop.length
      refine (rule_concludes h .negation (by rw [rank]; omega)).bind fun p hp => .pure ?_
      exact (hdrop.trans hp).mono (by decide)
    · exact rule_concludes h .comparison (by rw [rank]; omega)
  case comparison => exact readLeftward_concludes h (by decide) (by rw [rank]; omega) hn
  case sum => exact readLeftward_concludes h (by decide) (by rw [rank]; omega) hn
  case product => exact readLeftward_concludes h (by decide) (by rw [rank]; omega) hn
  case factor => exact readFactor_concludes h (by omega)
  -- the callee takes tokens, so what follows has budget left
  case callable =>
    refine (rule_concludes h .simple (by rw [rank]; omega)).bind fun p hp => ?_
    have hrest := hp.length
    exact (calls_concludes h n _ p.2 (by omega) (by omega)).imp fun q hq => hp.trans hq
  case simple => exact readSimple_concludes h (by decide) (by omega)
  case functionLiteral =>
    refine (skip_concludes _ ts).bind fun ts₁ h₁ => ?_
    have hlength := h₁.length
    refine (rule_concludes h .nameList (by rw [rank]; omega)).bind fun p hp => ?_
    have hpast := h₁.trans hp
    have hrest := hpast.length
    refine (rule_concludes h .blockStatement (by rw [rank]; omega)).bind fun q hq => .pure ?_
    exact (hpast.trans hq).mono (by decide)
  case nameList => exact readNameList_concludes (by omega)
  case expressionList => exact readExpressionList_concludes h (by omega) hn

end Concludes

/-- **A rule concludes** with 16 units of budget for each token and its rank on top. -/
theorem apply_concludes (st : Stage) : ∀ (b : Nat) (r : Rule) (ts : List Token),
    16 * ts.length + rank r < b → Concludes (fun p => Past r.least ts p.2) (apply st b r ts)
  | b + 1, r, _, hb =>
    step_concludes (apply_concludes st b) r (Nat.le_of_lt_succ hb) (Nat.le_refl b)

/-! ## The rules without a budget -/

/-- With the budget of `read` a rule comes to an end by itself. -/
theorem read_concludes (st : Stage) (r : Rule) (ts : List Token) :
    Concludes (fun p => Past r.least ts p.2) (r.read st ts) := by
  have hrank : rank r < 32 := by cases r <;> decide
  exact apply_concludes st _ r ts (by unfold budget; omega)

/-- What a rule gives with some budget, if the budget sufficed, is what it gives. -/
theorem apply_extends_read (st : Stage) (n : Nat) (r : Rule) (ts : List Token) :
    Extends (apply st n r ts) (r.read st ts) := by
  intro hne
  have hread := (read_concludes st r ts).ne_exhausted
  have hlarger := apply_extends st (Nat.le_max_left n (budget ts.length)) r ts hne
  have hlarger' := apply_extends st (Nat.le_max_right n (budget ts.length)) r ts hread
  exact hlarger'.symm.trans hlarger

/-- **The equation of the parser**: a rule is its own definition with the rules inside it. -/
theorem read_eq (st : Stage) (r : Rule) (ts : List Token) :
    r.read st ts = step st (Rule.read st) (budget ts.length) r ts := by
  have hread := (read_concludes st r ts).ne_exhausted
  have hstep : r.read st ts = step st (apply st (16 * ts.length + 31)) (16 * ts.length + 31) r ts :=
    rfl
  rw [hstep] at hread ⊢
  exact (step_extends (apply_extends_read st _) (Nat.le_succ _) r ts hread).symm

end Stepwise.Rule
