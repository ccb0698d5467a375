import Stepwise.Proofs.Remainders

/-!
# Which tokens stand side by side

Most pairs of tokens may be neighbours in a program, but behind an operator, an equals sign or an
exclamation mark there is always something that a phrase starts with (`read_met`). So no two
comparisons and no two equals signs stand in a row; of the operators only the minus starts a phrase
as well.

- `Rule.demanding`: the signs that ask for a phrase behind them;
- `Rule.Met st ts rest`: in `ts`, as far as `rest`, what these signs ask for is there.

One lemma for each reader of the parser, and an induction on the budget.
-/

namespace Stepwise.Rule

open Token (headTag Is)

/-- The signs behind which a phrase has to start. -/
def demanding : List String :=
  "=" :: "!" :: operators

theorem literalTags_not_demanding (st : Stage) :
    st.numberTag ∉ demanding ∧ st.booleanTag ∉ demanding ∧ st.nameTag ∉ demanding := by
  cases st <;> decide

/-- The tokens go on to `rest`, and on the way a phrase starts behind every sign that asks for
one. -/
inductive Met (st : Stage) : List Token → List Token → Prop
  | refl (ts : List Token) : Met st ts ts
  | cons {t : Token} {ts rest : List Token} (h : ∀ tag ∈ demanding, Is tag t → Begins st ts)
      (hts : Met st ts rest) : Met st (t :: ts) rest

namespace Met

variable {st : Stage} {ts mid rest : List Token}

/-- What one reading has met, and then another. -/
theorem trans (h : Met st ts mid) (h' : Met st mid rest) : Met st ts rest := by
  induction h with
  | refl => exact h'
  | cons hsign _ ih => exact .cons hsign (ih h')

/-- A token that asks for nothing. -/
theorem plain {tag : String} {t : Token} (ht : Is tag t) (htag : tag ∉ demanding)
    (h : Met st ts rest) : Met st (t :: ts) rest := by
  refine .cons (fun sign hsign hs => ?_) h
  exact absurd (tag_unique hs ht ▸ hsign) htag

/-- A token with a phrase behind it. -/
theorem sign (t : Token) (h : Begins st ts ∧ Met st ts rest) : Met st (t :: ts) rest :=
  .cons (fun _ _ _ => h.1) h.2

theorem tail {t : Token} (h : Met st (t :: ts) rest) (hlength : rest.length ≤ ts.length) :
    Met st ts rest := by
  cases h with
  | refl => exact absurd hlength (by simp)
  | cons _ h => exact h

theorem head {t : Token} (h : Met st (t :: ts) rest) (hlength : rest.length ≤ ts.length)
    {tag : String} (htag : tag ∈ demanding) (ht : Is tag t) : Begins st ts := by
  cases h with
  | refl => exact absurd hlength (by simp)
  | cons hsign _ => exact hsign tag htag ht

end Met

section Readers

/-- A token that is skipped and demands nothing. -/
theorem skip_met (st : Stage) {tag : String} (htag : tag ∉ demanding) (ts : List Token) :
    Yields (Met st ts) (skip tag ts) := by
  intro rest hrest
  obtain ⟨t, rfl, ht⟩ := skip_token tag ts rest hrest
  exact .plain ht htag (.refl rest)

theorem demand_met (st : Stage) {tag : String} (what : String) (htag : tag ∉ demanding)
    (ts : List Token) : Yields (Met st ts) (demand tag what ts) := by
  intro rest hrest
  obtain ⟨t, rfl, ht⟩ := demand_token tag what ts rest hrest
  exact .plain ht htag (.refl rest)

theorem drop_met (st : Stage) {tag : String} {ts : List Token} (h : headTag ts = .ok (.text tag))
    (htag : tag ∉ demanding) : Met st ts (ts.drop 1) := by
  obtain ⟨t, rest, rfl, ht⟩ := exists_of_headTag h
  exact .plain ht htag (.refl rest)

/-- Semicolons demand nothing of what is behind them. -/
theorem skipSemicolons_met (st : Stage) : ∀ ts : List Token, Yields (Met st ts) (skipSemicolons ts)
  | [] => .error _
  | t :: ts => by
    refine .bind fun v hv => .ite (fun hsemicolon rest hrest => ?_) fun _ => .pure (.refl _)
    obtain rfl := Value.eq_text_of_isText hsemicolon
    exact .plain hv (by decide) (skipSemicolons_met st ts rest hrest)

variable {st : Stage}

theorem readLeaf_met {tag : String} {ts : List Token} (h : headTag ts = .ok (.text tag))
    (htag : tag ∉ demanding) : Yields (fun p => Met st ts p.2) (readLeaf st tag ts) :=
  .bind fun _ _ => .pure (drop_met st h htag)

theorem parameter_met (ts : List Token) : Yields (fun p => Met st ts p.2) (parameter st ts) := by
  refine .bind fun b hb => .ite (fun hname => ?_) fun _ => .error _
  exact readLeaf_met (headTag_of_nextIs hb hname) (literalTags_not_demanding st).2.2

/-- Names and commas demand nothing here: a name has to follow, and is read. -/
theorem moreParameters_met : ∀ (n : Nat) (ts : List Token),
    Yields (fun p => Met st ts p.2) (moreParameters st n ts)
  | 0, _ => .error _
  | n + 1, ts => by
    refine .bind fun b hb => .ite (fun hcomma => ?_) fun _ => .pure (.refl ts)
    have hmid := drop_met st (headTag_of_nextIs hb hcomma) (by decide)
    refine .andThen (parameter_met _) fun p hp => .andThen (moreParameters_met n p.2) ?_
    exact fun q hq => .pure ((hmid.trans hp).trans hq)

theorem readNameList_met (n : Nat) (ts : List Token) :
    Yields (fun p => Met st ts p.2) (readNameList st n ts) := by
  refine .andThen (skip_met st (by decide) ts) fun mid hmid => .bind fun b hb => .ite ?_ fun _ => ?_
  · exact fun hclose => .pure (hmid.trans (drop_met st (headTag_of_nextIs hb hclose) (by decide)))
  · refine .andThen (parameter_met mid) fun p hp => .andThen (moreParameters_met n p.2) ?_
    refine fun q hq => .andThen (skip_met st (by decide) q.2) fun rest hrest => ?_
    exact .pure (((hmid.trans hp).trans hq).trans hrest)

variable {rule : Rule → List Token → Reading}
  (h : ∀ r ts, Yields (fun p => Begins st ts ∧ Met st ts p.2) (rule r ts))
include h

theorem rule_met (r : Rule) (ts : List Token) : Yields (fun p => Met st ts p.2) (rule r ts) :=
  fun p hp => (h r ts p hp).2

/-! ## Repetition -/

/-- Behind each operator an operand is read. -/
theorem leftward_met {operand : Rule} {signs : List String} :
    ∀ (n : Nat) (left : Tree) (ts : List Token),
      Yields (fun p => Met st ts p.2) (leftward st rule operand signs n left ts)
  | 0, _, _ => .error _
  | n + 1, left, ts => by
    intro p hp
    rcases leftward_inv hp with ⟨-, rfl⟩ | ⟨tag, t, more, right, rest, rfl, -, -, hright, hlater⟩
    · exact .refl ts
    · -- the operand starts right behind the operator
      exact (Met.sign t (h operand more _ hright)).trans (leftward_met n _ rest p hlater)

/-- An argument list is a phrase of its own. -/
theorem calls_met : ∀ (n : Nat) (callee : Tree) (ts : List Token),
    Yields (fun p => Met st ts p.2) (calls st rule n callee ts)
  | 0, _, _ => .error _
  | n + 1, callee, ts => by
    refine .bind fun b _ => .ite (fun _ => ?_) fun _ => .pure (.refl ts)
    refine .andThen (rule_met h .expressionList ts) fun p hp q hq => ?_
    exact hp.trans (calls_met n _ p.2 q hq)

/-- Behind each comma an expression is read. -/
theorem moreExpressions_met : ∀ (n : Nat) (ts : List Token),
    Yields (fun p => Met st ts p.2) (moreExpressions rule n ts)
  | 0, _ => .error _
  | n + 1, ts => by
    refine .bind fun b hb => .ite (fun hcomma => ?_) fun _ => .pure (.refl ts)
    have hmid := drop_met st (headTag_of_nextIs hb hcomma) (by decide)
    refine .andThen (rule_met h .expression _) fun p hp => .andThen (moreExpressions_met n p.2) ?_
    exact fun q hq => .pure ((hmid.trans hp).trans hq)

/-- Behind a semicolon there may be a statement. -/
theorem moreStatements_met : ∀ (n : Nat) (ts : List Token),
    Yields (fun p => Met st ts p.2) (moreStatements rule n ts)
  | 0, _ => .error _
  | n + 1, ts => by
    refine .bind fun _ _ => .ite (fun _ => ?_) fun _ => .pure (.refl ts)
    refine .andThen (skipSemicolons_met st ts) fun mid hmid => .bind fun _ _ => .ite ?_ fun _ => ?_
    · exact fun _ p hp => hmid.trans (moreStatements_met n mid p hp)
    · refine .andThen (rule_met h .statement mid) fun p hp => ?_
      refine .bind fun _ _ => .bind fun _ _ => .ite (fun _ => .error _) fun _ => ?_
      refine .andThen (moreStatements_met n p.2) fun q hq => ?_
      exact .pure ((hmid.trans hp).trans hq)

/-! ## The rules -/

/-- Leaves, parentheses and a minus, behind which something begins. -/
theorem readSimple_met (operand : Rule) (ts : List Token) :
    Yields (fun p => Met st ts p.2) (readSimple st rule operand ts) := by
  have hleaf : ∀ {tag : String} {v : Value}, headTag ts = .ok v → v.isText tag = true →
      tag ∉ demanding → Yields (fun p => Met st ts p.2) (readLeaf st tag ts) :=
    fun hv htext htag => readLeaf_met (headTag_of_isText hv htext) htag
  -- the tags of literals are not among the demanding ones
  obtain ⟨hnumber, hboolean, hname⟩ := literalTags_not_demanding st
  refine .bind fun v hv => .ite (fun htag => hleaf hv htag hnumber) fun _ =>
    .ite (fun htag => hleaf hv (Bool.and_eq_true_iff.1 htag).1 hboolean) fun _ =>
    .ite (fun htag => hleaf hv (Bool.and_eq_true_iff.1 htag).1 hname) fun _ =>
    .ite (fun htag => ?_) fun _ => .ite (fun htag => ?_) fun _ =>
    .ite (fun _ => rule_met h .functionLiteral ts) fun _ => .error _
  -- parentheses demand nothing by themselves: what is inside begins anyway
  · have hopen := drop_met st (headTag_of_isText hv htag) (by decide)
    refine .andThen (rule_met h _ _) fun p hp => .bind fun b hb => .ite (fun hclose => ?_) ?_
    · exact .pure ((hopen.trans hp).trans (drop_met st (headTag_of_nextIs hb hclose) (by decide)))
    · exact fun _ => .error _
  -- behind a minus the operand begins
  · obtain ⟨t, more, rfl, -⟩ :=
      exists_of_headTag (headTag_of_isText hv (Bool.and_eq_true_iff.1 htag).1)
    exact .andThen (h operand more) fun p hp => .pure (.sign t hp)

/-- A factor is read by a simpler rule. -/
theorem readFactor_met (ts : List Token) :
    Yields (fun p => Met st ts p.2) (readFactor st rule ts) := by
  cases st with
  | returns => exact rule_met h .callable ts
  | functions =>
    refine .bind fun b hb => .ite (fun hname => ?_) fun _ => readSimple_met h _ ts
    refine .andThen (readLeaf_met (headTag_of_nextIs hb hname) (by decide)) fun p hp => ?_
    refine .bind fun _ _ => .ite (fun _ => ?_) fun _ => .pure hp
    exact .andThen (rule_met h .expressionList p.2) fun q hq => .pure (hp.trans hq)
  | expressions | assignments | booleans | conditions | blocks | scopes =>
    exact readSimple_met h _ ts

/-- Behind `!` another negation begins. -/
theorem readNegation_met (ts : List Token) :
    Yields (fun p => Met st ts p.2) (readNegation st rule ts) := by
  refine .bind fun b hb => .ite (fun hsign => ?_) fun _ => rule_met h .comparison ts
  obtain ⟨t, more, rfl, -⟩ := exists_of_headTag (headTag_of_nextIs hb hsign)
  exact .andThen (h .negation more) fun p hp => .pure (.sign t hp)

/-- Behind the sign the expression begins. -/
theorem readAssignment_met (ts : List Token) :
    Yields (fun p => Met st ts p.2) (readAssignment st rule ts) := by
  refine .bind fun b hb => .ite (fun _ => .error _) fun hname => .bind fun _ _ => ?_
  have htarget := drop_met st (headTag_of_nextIs hb (by simpa using hname))
    (literalTags_not_demanding st).2.2
  refine .andThen (demand_token "=" _ _) fun rest hrest => ?_
  obtain ⟨t, hdrop, -⟩ := hrest
  rw [hdrop] at htarget
  exact .andThen (h .expression rest) fun p hp => .pure (htarget.trans (.sign t hp))

/-- A condition begins behind its parenthesis. -/
theorem readCondition_met (closing : String) (ts : List Token) :
    Yields (fun p => Met st ts p.2) (readCondition rule closing ts) := by
  refine .andThen (demand_met st _ (by decide) ts) fun mid hmid => ?_
  refine .andThen (rule_met h .expression mid) fun p hp => ?_
  refine .andThen (demand_met st _ (by decide) p.2) fun rest hrest => .pure ?_
  exact (hmid.trans hp).trans hrest

/-- Behind `else` a statement begins. -/
theorem readIf_met (ts : List Token) : Yields (fun p => Met st ts p.2) (readIf st rule ts) := by
  refine .andThen (skip_met st (by decide) ts) fun mid hmid => ?_
  refine .andThen (readCondition_met h _ mid) fun p hp => ?_
  refine .andThen (rule_met h .statement p.2) fun q hq => ?_
  have hsofar := (hmid.trans hp).trans hq
  refine .ite (fun _ => .bind fun b hb => .ite (fun helse => ?_) fun _ => .pure hsofar) ?_
  · refine .andThen (rule_met h .statement _) fun s hs => .pure (hsofar.trans ?_)
    exact (drop_met st (headTag_of_nextIs hb helse) (by decide)).trans hs
  · exact fun _ => .pure hsofar

theorem readWhile_met (ts : List Token) :
    Yields (fun p => Met st ts p.2) (readWhile st rule ts) := by
  refine .andThen (skip_met st (by decide) ts) fun mid hmid => ?_
  refine .andThen (readCondition_met h _ mid) fun p hp => ?_
  exact .andThen (rule_met h .statement p.2) fun q hq => .pure ((hmid.trans hp).trans hq)

/-- A block is met from its first statement to its brace. -/
theorem readBlock_met (n : Nat) (ts : List Token) :
    Yields (fun p => Met st ts p.2) (readBlock rule n ts) := by
  refine .andThen (skip_met st (by decide) ts) fun inside hinside => ?_
  refine .andThen (skipSemicolons_met st inside) fun mid hmid => ?_
  refine .bind fun b hb => .ite ?_ fun _ => ?_
  · refine fun hclose => .pure ((hinside.trans hmid).trans ?_)
    exact drop_met st (headTag_of_nextIs hb hclose) (by decide)
  · refine .andThen (rule_met h .statement mid) fun p hp => ?_
    refine .andThen (moreStatements_met h n p.2) fun q hq => ?_
    refine .andThen (skip_met st (by decide) q.2) fun rest hrest => .pure ?_
    exact (((hinside.trans hmid).trans hp).trans hq).trans hrest

/-- A return may have nothing behind it. -/
theorem readReturn_met (ts : List Token) :
    Yields (fun p => Met st ts p.2) (readReturn rule ts) := by
  refine .andThen (skip_met st (by decide) ts) fun mid hmid => .bind fun _ _ => ?_
  refine .ite (fun _ => .pure hmid) fun _ => ?_
  exact .andThen (rule_met h .expression mid) fun p hp => .pure (hmid.trans hp)

theorem readPrint_met (ts : List Token) :
    Yields (fun p => Met st ts p.2) (readPrint rule ts) := by
  refine .andThen (skip_met st (by decide) ts) fun mid hmid => ?_
  exact .andThen (rule_met h .expressionList mid) fun p hp => .pure (hmid.trans hp)

/-- The sign that is made up is not among the tokens. -/
theorem readFunctionStatement_met
    (hpast : ∀ ts, Yields (fun p => Past 3 ts p.2) (rule .assignment ts)) (ts : List Token) :
    Yields (fun p => Met st ts p.2) (readFunctionStatement st rule ts) := by
  refine .andThen (skip_token _ _) ?_
  rintro _ ⟨keyword, rfl, hkeyword⟩
  refine .andThen (skip_token _ _) ?_
  rintro rest ⟨name, hmore, hname⟩
  rw [List.drop_one, List.tail_cons] at hmore
  subst hmore
  refine .bind fun position _ p hp => ?_
  -- the rule of assignments is past the name and the sign that is made up, so the tokens met behind
  -- them are tokens of the text
  have hlength := (hpast _ p hp).length
  simp only [List.length_cons] at hlength
  have hmet := ((rule_met h .assignment _ p hp).tail (by simp; omega)).tail (by simp; omega)
  have hrest := hmet.tail (by omega)
  exact .plain hkeyword (by decide) (.plain hname (literalTags_not_demanding st).2.2 hrest)

theorem readFunction_met (ts : List Token) :
    Yields (fun p => Met st ts p.2) (readFunction rule ts) := by
  refine .andThen (skip_met st (by decide) ts) fun mid hmid => ?_
  refine .andThen (rule_met h .nameList mid) fun p hp => ?_
  exact .andThen (rule_met h .blockStatement p.2) fun q hq => .pure ((hmid.trans hp).trans hq)

theorem readExpressionList_met (n : Nat) (ts : List Token) :
    Yields (fun p => Met st ts p.2) (readExpressionList rule n ts) := by
  refine .andThen (skip_met st (by decide) ts) fun mid hmid => .bind fun b hb => .ite ?_ fun _ => ?_
  · exact fun hclose => .pure (hmid.trans (drop_met st (headTag_of_nextIs hb hclose) (by decide)))
  · refine .andThen (rule_met h .expression mid) fun p hp => ?_
    refine .andThen (moreExpressions_met h n p.2) fun q hq => ?_
    refine .andThen (skip_met st (by decide) q.2) fun rest hrest => .pure ?_
    exact ((hmid.trans hp).trans hq).trans hrest

/-- The rules that the first token chooses. -/
theorem readStatement_met (ts : List Token) :
    Yields (fun p => Met st ts p.2) (readStatement st rule ts) := by
  have hrule := fun r => rule_met h r ts
  refine .bind fun _ _ => .ite (fun _ => hrule _) fun _ => .ite (fun _ => hrule _) fun _ => ?_
  refine .ite (fun _ => ?_) fun _ => .ite (fun _ => hrule _) fun _ => .ite (fun _ => hrule _) ?_
  · exact .bind fun _ _ => .ite (fun _ => hrule _) fun _ => hrule _
  · refine fun _ => .ite (fun _ => hrule _) fun _ => .ite (fun _ => ?_) fun _ => hrule _
    exact .bind fun _ _ => .ite (fun _ => hrule _) fun _ => hrule _

/-- One application of a rule has met what rules inside have met. -/
theorem step_met (hpast : ∀ ts, Yields (fun p => Past 3 ts p.2) (rule .assignment ts)) (n : Nat)
    (r : Rule) (ts : List Token) : Yields (fun p => Met st ts p.2) (step st rule n r ts) := by
  cases r with
  | statement => exact readStatement_met h ts
  | ifStatement => exact readIf_met h ts
  | whileStatement => exact readWhile_met h ts
  | blockStatement => exact readBlock_met h n ts
  | returnStatement => exact readReturn_met h ts
  | printStatement => exact readPrint_met h ts
  | functionStatement => exact readFunctionStatement_met h hpast ts
  | assignment => exact readAssignment_met h ts
  | expression => exact rule_met h _ ts
  | disjunction | conjunction | comparison | sum | product =>
    exact .andThen (rule_met h _ ts) fun p hp q hq => hp.trans (leftward_met h n _ p.2 q hq)
  | negation => exact readNegation_met h ts
  | factor => exact readFactor_met h ts
  | callable =>
    exact .andThen (rule_met h .simple ts) fun p hp q hq => hp.trans (calls_met h n _ p.2 q hq)
  | simple => exact readSimple_met h _ ts
  | functionLiteral => exact readFunction_met h ts
  | nameList => exact readNameList_met n ts
  | expressionList => exact readExpressionList_met h n ts

end Readers

/-- What a rule takes begins with a token that can begin something, and everything that demands more
gets it. -/
theorem apply_met (st : Stage) : ∀ (n : Nat) (r : Rule) (ts : List Token),
    Yields (fun p => Begins st ts ∧ Met st ts p.2) (apply st n r ts)
  | 0, _, _ => .error _
  | n + 1, r, ts => fun p hp => by
    refine ⟨apply_begins st (n + 1) r ts p hp, ?_⟩
    exact step_met (apply_met st n) (apply_past st n .assignment) n r ts p hp

/-- **In what a rule reads, a phrase starts behind every sign that asks for one.** -/
theorem read_met {st : Stage} {r : Rule} {ts rest : List Token} {t : Tree}
    (h : r.read st ts = .ok (t, rest)) : Met st ts rest :=
  (apply_met st _ r ts _ h).2

end Stepwise.Rule
