import Stepwise.Proofs.ExpressionStages
import Stepwise.Proofs.ParserLocality

/-!
# Expressions in parentheses

By the grammar an expression in parentheses is a factor. From `booleans` to `functions` the parser
reads a comparison there and not an expression, so that parentheses around a logical operator or a
negation are refused (`read_in_parentheses`); around every other expression they change nothing.

- `Tree.isLogical`: which trees these are;
- `Rule.Relational`: a reading that gives none of them, as all readings of comparisons
  (`apply_relational`);
- `Rule.Built`: how an expression starts, with a comparison or with a negation;
- `Rule.parenthesesFault`: what is reported.
-/

namespace Stepwise

open Token (headTag Is)

namespace Tree

/-- The tags of logical operators and of negations. -/
def logicalTags : List String := ["||", "&&", "not"]

/-- At the root of the tree is a logical operator or a negation. -/
def isLogical (t : Tree) : Bool :=
  match t.field "tag" with
  | .ok (.text tag) => logicalTags.contains tag
  | _ => false

@[simp] theorem isLogical_leaf (st : Stage) (tag : String) (v : Value) :
    (leaf st tag v).isLogical = logicalTags.contains tag := by
  unfold leaf
  split <;> rfl

@[simp] theorem isLogical_binary (st : Stage) (tag : String) (left right : Tree) :
    (binary st tag left right).isLogical = logicalTags.contains tag := by
  unfold binary
  split <;> rfl

@[simp] theorem isLogical_unary (st : Stage) (tag : String) (operand : Tree) :
    (unary st tag operand).isLogical = logicalTags.contains tag := by
  unfold unary
  split <;> rfl

end Tree

namespace Rule

variable {st : Stage}

/-! ## Operators behind an operand -/

section Leftward

variable {rule : Rule → List Token → Reading} {operand : Rule} {signs : List String}

/-- What holds of the first operand and of every tree with an operator at its root holds of the
tree that is read. What holds behind every operand holds behind the last one. -/
theorem leftward_yields {P : Tree → Prop} {Q : List Token → Prop}
    (hbinary : ∀ tag ∈ signs, ∀ left right, P (Tree.binary st tag left right))
    (hoperand : ∀ ts, Yields (fun p => Q p.2) (rule operand ts)) :
    ∀ (n : Nat) {left : Tree} {ts : List Token}, P left → Q ts →
      Yields (fun p => P p.1 ∧ Q p.2 ∧ Stops signs p.2) (leftward st rule operand signs n left ts)
  | 0, _, _, _, _ => .error _
  | n + 1, left, ts, hleft, hts => by
    intro p hp
    rcases leftward_inv hp with
      ⟨hstops, rfl⟩ | ⟨tag, t, more, right, rest, rfl, -, htag, hright, hp⟩
    · exact ⟨hleft, hts, hstops⟩
    · exact leftward_yields hbinary hoperand n (hbinary tag htag left right)
        (hoperand more _ hright) p hp

/-- Without an operator ahead the operand stands alone. With a logical one ahead the tree is a
logical one. -/
theorem leftward_logical (hsigns : ∀ tag ∈ signs, tag ∈ Tree.logicalTags) {n : Nat} {left : Tree}
    {ts : List Token} {p : Tree × List Token}
    (hp : leftward st rule operand signs n left ts = .ok p) :
    (p = (left, ts) ∧ Stops signs ts) ∨
      (p.1.isLogical = true ∧ ∃ tag ∈ signs, headTag ts = .ok (.text tag)) := by
  cases n with
  | zero => cases hp
  | succ n =>
    rcases leftward_inv hp with ⟨hstops, rfl⟩ | ⟨tag, t, more, right, rest, rfl, ht, htag, -, hp⟩
    · exact .inl ⟨rfl, hstops⟩
    · have hbinary : ∀ tag ∈ signs, ∀ left right : Tree,
          (Tree.binary st tag left right).isLogical = true := by
        intro tag htag left right
        simpa using hsigns tag htag
      have hlogical := leftward_yields (P := fun t => t.isLogical = true) (Q := fun _ => True)
        hbinary (fun _ _ _ => trivial) n (hbinary tag htag left right) trivial p hp
      exact .inr ⟨hlogical.1, tag, htag, ht⟩

end Leftward

/-! ## Levels of operators -/

section Levels

variable {r operand : Rule} {signs : List String} {ts rest : List Token} {t : Tree}

theorem read_level_error {e : Fault} (hr : r.level? = some (operand, signs))
    (h : operand.read st ts = .error e) : r.read st ts = .error e := by
  rw [read_eq, step_level hr, readLeftward, h]
  rfl

theorem read_level_end (hr : r.level? = some (operand, signs))
    (h : operand.read st ts = .ok (t, rest)) (hrest : Stops signs rest) :
    r.read st ts = .ok (t, rest) :=
  (read_level hr h).trans (leftward_end _ hrest)

/-- Behind a level stands none of its operators, and nothing that its operands go on with. -/
theorem level_stops {Q : List Token → Prop} (hr : r.level? = some (operand, signs))
    (hoperand : ∀ ts, Yields (fun p => Q p.2) (operand.read st ts)) (ts : List Token) :
    Yields (fun p => Q p.2 ∧ Stops signs p.2) (r.read st ts) := by
  rw [read_eq, step_level hr]
  refine .bind fun q hq p hp => ?_
  exact (leftward_yields (P := fun _ => True) (fun _ _ _ _ => trivial) hoperand _ trivial
    (hoperand ts q hq) p hp).2

theorem Stops.append {signs signs' : List String} (h : Stops signs ts) (h' : Stops signs' ts) :
    Stops (signs ++ signs') ts := by
  obtain ⟨v, hv, hne⟩ := h
  obtain ⟨v', hv', hne'⟩ := h'
  obtain rfl : v = v' := Except.ok.inj (hv.symm.trans hv')
  exact ⟨v, hv, List.forall_mem_append.2 ⟨hne, hne'⟩⟩

/-- Behind a comparison there is no operator of a level below. -/
theorem comparison_stops (ts : List Token) :
    Yields (fun p => Stops ["*", "/", "+", "-", "<", ">", "<=", ">=", "==", "!="] p.2)
      (comparison.read st ts) := by
  have hproduct : ∀ ts, Yields (fun p => Stops ["*", "/"] p.2) (product.read st ts) :=
    fun ts p hp => (level_stops (Q := fun _ => True) rfl (fun _ _ _ => trivial) ts p hp).2
  have hsum : ∀ ts, Yields (fun p => Stops ["*", "/"] p.2 ∧ Stops ["+", "-"] p.2)
      (sum.read st ts) :=
    level_stops rfl hproduct
  intro p hp
  obtain ⟨⟨htimes, hplus⟩, hless⟩ :=
    level_stops (Q := fun ts => Stops ["*", "/"] ts ∧ Stops ["+", "-"] ts) rfl hsum ts p hp
  exact (htimes.append hplus).append hless

theorem comparison_error {e : Fault} (h : factor.read st ts = .error e) :
    comparison.read st ts = .error e :=
  read_level_error rfl (read_level_error (r := sum) rfl (read_level_error (r := product) rfl h))

/-- From `booleans` on an expression is a disjunction. -/
theorem read_disjunction (hst : st.has .booleans = true) (ts : List Token) :
    expression.read st ts = disjunction.read st ts := by
  rw [read_eq]
  simp [step, hst]

/-- An expression of one factor. -/
theorem expression_of_factor (hst : st.has .booleans = true) (hts : Stops ["!"] ts)
    (h : factor.read st ts = .ok (t, rest)) (hrest : Stops operators rest) :
    expression.read st ts = .ok (t, rest) := by
  have hproduct : product.read st ts = .ok (t, rest) :=
    read_level_end rfl h (hrest.mono (by decide))
  have hsum : sum.read st ts = .ok (t, rest) :=
    read_level_end rfl hproduct (hrest.mono (by decide))
  have hcomparison : comparison.read st ts = .ok (t, rest) :=
    read_level_end rfl hsum (hrest.mono (by decide))
  have hconjunction : conjunction.read st ts = .ok (t, rest) :=
    read_level_end rfl ((read_plain hts).trans hcomparison) (hrest.mono (by decide))
  rw [read_disjunction hst]
  exact read_level_end rfl hconjunction (hrest.mono (by decide))

/-- An expression that does not start with a negation fails with the fault of its first factor. -/
theorem expression_error {e : Fault} (hst : st.has .booleans = true) (hts : Stops ["!"] ts)
    (h : factor.read st ts = .error e) : expression.read st ts = .error e := by
  have hnegation : negation.read st ts = .error e := (read_plain hts).trans (comparison_error h)
  rw [read_disjunction hst]
  exact read_level_error rfl (read_level_error (r := conjunction) rfl hnegation)

end Levels

/-! ## Comparisons -/

section Relational

variable {rule : Rule → List Token → Reading}

/-- What is read is not logical. -/
def Relational (x : Reading) : Prop :=
  Yields (fun p => p.1.isLogical = false) x

/-- A level without logical operators reads no logical tree. -/
theorem readLeftward_relational {operand : Rule} {signs : List String}
    (hoperand : ∀ ts, Relational (rule operand ts))
    (hsigns : ∀ tag ∈ signs, tag ∉ Tree.logicalTags) (n : Nat) (ts : List Token) :
    Relational (readLeftward st rule n operand signs ts) := by
  have hbinary : ∀ tag ∈ signs, ∀ left right : Tree,
      (Tree.binary st tag left right).isLogical = false := by
    intro tag htag left right
    simpa using hsigns tag htag
  refine .bind fun q hq p hp => ?_
  exact (leftward_yields (P := fun t => t.isLogical = false) (Q := fun _ => True) hbinary
    (fun _ _ _ => trivial) n (hoperand ts q hq) trivial p hp).1

theorem readLeaf_relational {word : String} (hword : word ∈ Stage.literals) (ts : List Token) :
    Relational (readLeaf st (st.literalTag word) ts) := by
  have hall : ∀ st : Stage, ∀ word ∈ Stage.literals, st.literalTag word ∉ Tree.logicalTags := by
    intro st
    cases st <;> decide
  refine .bind fun v _ => .pure ?_
  simpa using hall st word hword

variable (hst : st.has .booleans = true) (hst' : st.has .returns = false)
include hst hst'

/-- In parentheses stands a comparison. -/
theorem parenthesized_eq (ts : List Token) :
    parenthesized st rule ts = (do
      let (e, rest) ← rule .comparison (ts.drop 1)
      if ← nextIs ")" rest then return (e, rest.drop 1) else throw .unclosed) := by
  simp [parenthesized, hst, hst']

/-- A simple expression is no logical tree, as in parentheses stands a comparison. -/
theorem readSimple_relational (hcomparison : ∀ ts, Relational (rule .comparison ts))
    (hfunction : ∀ ts, Relational (rule .functionLiteral ts)) (operand : Rule)
    (ts : List Token) : Relational (readSimple st rule operand ts) := by
  refine .bind fun tag _ => .ite (fun _ => readLeaf_relational (by decide) ts) fun _ =>
    .ite (fun _ => readLeaf_relational (by decide) ts) fun _ =>
    .ite (fun _ => readLeaf_relational (by decide) ts) fun _ =>
    .ite (fun _ => ?_) fun _ => .ite (fun _ => ?_) fun _ => .ite (fun _ => hfunction ts) fun _ =>
    .error _
  · rw [parenthesized_eq hst hst']
    refine .bind fun p hp => .bind fun _ _ => .ite (fun _ => .pure ?_) fun _ => .error _
    exact hcomparison _ p hp
  · exact .bind fun p _ => .pure (by simp [Tree.logicalTags])

/-- Nor is a factor. -/
theorem readFactor_relational (hcomparison : ∀ ts, Relational (rule .comparison ts))
    (hfunction : ∀ ts, Relational (rule .functionLiteral ts)) (ts : List Token) :
    Relational (readFactor st rule ts) := by
  have hsimple := readSimple_relational hst hst' hcomparison hfunction .factor ts
  cases st with
  | returns => cases hst'
  | functions =>
    have hname : Relational (readLeaf .functions (Stage.nameTag .functions) ts) :=
      readLeaf_relational (by decide) ts
    refine .bind fun _ _ => .ite (fun _ => .bind fun p hp => ?_) fun _ => hsimple
    exact .bind fun _ _ => .ite (fun _ => .bind fun _ _ => .pure rfl) fun _ => .pure (hname p hp)
  | expressions | assignments | booleans | conditions | blocks | scopes => exact hsimple

/-- **No comparison is logical**: parentheses bring none in. -/
theorem apply_relational : ∀ (n : Nat), ∀ r ∈ [comparison, sum, product, factor, functionLiteral],
    ∀ ts : List Token, Relational (apply st n r ts)
  | 0, _, _, _ => .error _
  | n + 1, r, hr, ts => by
    have ih := apply_relational n
    rw [apply]
    simp only [List.mem_cons, List.not_mem_nil, or_false] at hr
    rcases hr with rfl | rfl | rfl | rfl | rfl
    · exact readLeftward_relational (ih .sum (by decide)) (by decide) n ts
    · exact readLeftward_relational (ih .product (by decide)) (by decide) n ts
    · exact readLeftward_relational (ih .factor (by decide)) (by decide) n ts
    · exact readFactor_relational hst hst' (ih .comparison (by decide))
        (ih .functionLiteral (by decide)) ts
    · exact .bind fun _ _ => .bind fun _ _ => .bind fun _ _ => .pure rfl

end Relational

/-! ## Expressions -/

section Expressions

variable {signs signs' : List String} {ts rest : List Token} {t : Tree}

/-- How an expression starts: it is a comparison, with none of the signs behind it, or it is
logical. Then it starts with a negation, or with a comparison that one of the signs follows. -/
inductive Built (st : Stage) (signs : List String) (ts : List Token) : Tree → List Token → Prop
  | comparison {t : Tree} {rest : List Token} (hplain : Stops ["!"] ts)
      (hread : Rule.comparison.read st ts = .ok (t, rest)) (ht : t.isLogical = false)
      (hrest : Stops signs rest) : Built st signs ts t rest
  | negation {bang : Token} {more : List Token} {t : Tree} {rest : List Token}
      (hts : ts = bang :: more) (hbang : Is "!" bang) (ht : t.isLogical = true) :
      Built st signs ts t rest
  | operator {tag : String} {left : Tree} {mid : List Token} {t : Tree} {rest : List Token}
      (hplain : Stops ["!"] ts) (hread : Rule.comparison.read st ts = .ok (left, mid))
      (htag : tag ∈ signs) (hmid : headTag mid = .ok (.text tag)) (ht : t.isLogical = true) :
      Built st signs ts t rest

/-- A negation starts with its sign, or it is a comparison. -/
theorem negation_built (hst : st.has .booleans = true) (hst' : st.has .returns = false)
    (h : negation.read st ts = .ok (t, rest)) :
    Built st ["*", "/", "+", "-", "<", ">", "<=", ">=", "==", "!="] ts t rest := by
  obtain hplain | ⟨tag, htag, hhead⟩ | ⟨e, hhead⟩ := stops_or_headTag ["!"] ts
  · rw [read_plain hplain] at h
    exact .comparison hplain h (apply_relational hst hst' _ _ (by decide) ts _ h)
      (comparison_stops ts _ h)
  · obtain rfl := List.mem_singleton.1 htag
    obtain ⟨bang, more, rfl, hbang⟩ := exists_of_headTag hhead
    -- behind the sign the tree read is that of a negation
    have hnot : Yields (fun p => p.1.isLogical = true) (negation.read st (bang :: more)) := by
      rw [read_eq]
      refine .bind fun b hb => .ite (fun _ => .bind fun q _ => .pure ?_) fun hfalse => ?_
      · simp [Tree.logicalTags]
      · rw [nextIs_of_is hbang] at hb
        exact absurd (Except.ok.inj hb).symm hfalse
    exact .negation rfl hbang (hnot _ h)
  · rw [read_eq, step, readNegation, nextIs, hhead] at h
    cases h

/-- A level of logical operators. -/
theorem Built.level {r operand : Rule} (hr : r.level? = some (operand, signs))
    (hsigns : ∀ tag ∈ signs, tag ∈ Tree.logicalTags)
    (hoperand : ∀ t rest, operand.read st ts = .ok (t, rest) → Built st signs' ts t rest)
    (h : r.read st ts = .ok (t, rest)) : Built st (signs' ++ signs) ts t rest := by
  cases hleft : operand.read st ts with
  | error e =>
    rw [read_level_error hr hleft] at h
    cases h
  | ok q =>
    obtain ⟨left, mid⟩ := q
    rw [read_level hr hleft] at h
    have hbuilt := hoperand left mid hleft
    rcases leftward_logical hsigns h with ⟨heq, hstops⟩ | ⟨ht, tag, htag, hmid⟩
    -- no operator of this level follows, and the expression is its first operand
    · cases heq
      cases hbuilt with
      | comparison hplain hread ht hrest => exact .comparison hplain hread ht (hrest.append hstops)
      | negation hts hbang ht => exact .negation hts hbang ht
      | operator hplain hread htag hmid ht =>
        exact .operator hplain hread (List.mem_append_left _ htag) hmid ht
    -- an operator follows: the tree is logical, however its first operand is built
    · cases hbuilt with
      | comparison hplain hread =>
        exact .operator hplain hread (List.mem_append_right _ htag) hmid ht
      | negation hts hbang => exact .negation hts hbang ht
      | operator hplain hread htag hmid =>
        exact .operator hplain hread (List.mem_append_left _ htag) hmid ht

/-- **How an expression is built**, from `booleans` to `functions`. -/
theorem expression_built (hst : st.has .booleans = true) (hst' : st.has .returns = false)
    (h : expression.read st ts = .ok (t, rest)) :
    Built st ["*", "/", "+", "-", "<", ">", "<=", ">=", "==", "!=", "&&", "||"] ts t rest := by
  rw [read_disjunction hst] at h
  have hconjunction : ∀ t rest, conjunction.read st ts = .ok (t, rest) →
      Built st ["*", "/", "+", "-", "<", ">", "<=", ">=", "==", "!=", "&&"] ts t rest :=
    fun _ _ => .level rfl (by decide) fun _ _ => negation_built hst hst'
  exact .level rfl (by decide) hconjunction h

end Expressions

/-! ## In parentheses -/

theorem throw_eq_error {α : Type} (e : Fault) : (throw e : Except Fault α) = .error e := rfl

/-- Before `returns` a factor that starts with a sign is a simple expression. -/
theorem read_factor_of_sign (hst' : st.has .returns = false) {sign : Token} {tag : String}
    (h : Is tag sign) (htag : tag ∈ signs) (ts : List Token) :
    factor.read st (sign :: ts) = readSimple st (Rule.read st) .factor (sign :: ts) := by
  rw [read_eq]
  cases st with
  | returns => cases hst'
  | functions =>
    have hname : nextIs (Stage.nameTag .functions) (sign :: ts) = .ok false :=
      nextIs_of_is_ne h (sign_ne_literalTags .functions htag).2.2
    simp [step, readFactor, hname]
  | expressions | assignments | booleans | conditions | blocks | scopes => rfl

/-- Behind an opening parenthesis a comparison is read, and then the closing one. -/
theorem read_opening (hst : st.has .booleans = true) (hst' : st.has .returns = false)
    {opening : Token} (h : Is "(" opening) (ts : List Token) :
    factor.read st (opening :: ts) = (do
      let (e, rest) ← comparison.read st ts
      if ← nextIs ")" rest then return (e, rest.drop 1) else throw .unclosed) := by
  rw [read_factor_of_sign hst' h (by decide), readSimple_open (headTag_of_is h),
    parenthesized_eq hst hst']
  rfl

/-- A sign that starts no factor is reported. -/
theorem readSimple_unexpected {rule : Rule → List Token → Reading} {operand : Rule} {sign : Token}
    {tag : String} (h : Is tag sign) (htag : tag ∈ signs) (hnot : tag ∉ ["(", "-", "function"])
    (ts : List Token) : readSimple st rule operand (sign :: ts) = .error (.unexpected sign) := by
  simp only [List.mem_cons, List.not_mem_nil, or_false, not_or] at hnot
  simp [readSimple, headTag_of_is h, Value.isText, throw_eq_error, sign_ne_literalTags st htag,
    hnot]

/-- A sign that starts no factor is reported. -/
theorem read_factor_unexpected {sign : Token} {tag : String} (h : Is tag sign)
    (htag : tag ∈ signs) (hnot : tag ∉ ["(", "-", "function"]) (ts : List Token) :
    factor.read st (sign :: ts) = .error (.unexpected sign) := by
  cases hreturns : st.has .returns with
  | false =>
    rw [read_factor_of_sign hreturns h htag]
    exact readSimple_unexpected h htag hnot ts
  | true =>
    have hst : st = .returns := by cases st <;> first | rfl | cases hreturns
    subst hst
    have hsimple : simple.read .returns (sign :: ts) = .error (.unexpected sign) := by
      rw [read_eq]
      exact readSimple_unexpected h htag hnot ts
    rw [read_factor, read_eq]
    simp only [step, hsimple]
    rfl

section Around

variable {opening : Token} {ts rest : List Token} {t : Tree} (hst : st.has .booleans = true)
  (hst' : st.has .returns = false) (hopening : Is "(" opening)
include hst hst' hopening

/-- A comparison is read in the parentheses, and nothing behind them goes on with it. -/
theorem read_around_comparison {closing : Token} (hclosing : Is ")" closing)
    (h : comparison.read st ts = .ok (t, closing :: rest)) (hrest : Stops operators rest) :
    expression.read st (opening :: ts) = .ok (t, rest) := by
  have hfactor : factor.read st (opening :: ts) = .ok (t, rest) := by
    rw [read_opening hst hst' hopening, h]
    simp [nextIs_of_is hclosing]
  exact expression_of_factor hst (.of_is hopening (by decide)) hfactor hrest

/-- No comparison starts with a negation. -/
theorem read_around_negation {bang : Token} (hbang : Is "!" bang) (ts : List Token) :
    expression.read st (opening :: bang :: ts) = .error (.unexpected bang) := by
  have hfactor : factor.read st (opening :: bang :: ts) = .error (.unexpected bang) := by
    rw [read_opening hst hst' hopening,
      comparison_error (read_factor_unexpected hbang (by decide) (by decide) ts)]
    rfl
  exact expression_error hst (.of_is hopening (by decide)) hfactor

/-- Behind a comparison the parenthesis should be closed. -/
theorem read_around_unclosed (h : comparison.read st ts = .ok (t, rest))
    (hrest : Stops [")"] rest) : expression.read st (opening :: ts) = .error .unclosed := by
  have hfactor : factor.read st (opening :: ts) = .error .unclosed := by
    rw [read_opening hst hst' hopening, h]
    simp [hrest.nextIs (List.mem_singleton_self _), throw_eq_error]
  exact expression_error hst (.of_is hopening (by decide)) hfactor

end Around

/-- What is reported of an expression that starts with these tokens and is logical, if it stands in
parentheses. -/
def parenthesesFault (ts : List Token) : Fault :=
  match nextIs "!" ts with
  | .ok true => .unexpected (ts.headD .null)
  | _ => .unclosed

/-- **Parentheses around an expression.** From `booleans` to `functions` they change nothing if the
tree of the expression is not logical: it is read with them as without. If it is logical they are
refused. -/
theorem read_in_parentheses (hst : st.has .booleans = true) (hst' : st.has .returns = false)
    {e rest : List Token} {t : Tree} (h : expression.read st (e ++ rest) = .ok (t, rest))
    {opening closing : Token} (hopening : Is "(" opening) (hclosing : Is ")" closing) :
    expression.read st (opening :: (e ++ closing :: rest)) =
      if t.isLogical then .error (parenthesesFault e) else .ok (t, rest) := by
  -- before the closing parenthesis the expression is the same
  obtain ⟨us, hus, ⟨first, hfirst, -⟩, -, hagain⟩ := (read_solid st .expression).split h
  obtain rfl : e = us := List.append_cancel_right hus
  obtain ⟨more, he⟩ := List.head?_eq_some_iff.1 hfirst
  have hcalm : Stops (goesOn st) (closing :: rest) :=
    .of_is hclosing (by cases st <;> decide)
  have hinner : expression.read st (e ++ closing :: rest) = .ok (t, closing :: rest) :=
    hagain _ (.calm hcalm)
  cases expression_built hst hst' hinner with
  | comparison _ hread ht _ =>
    have hrest : Stops operators rest := by
      cases expression_built hst hst' h with
      | comparison _ _ _ hrest => exact hrest.mono (by decide)
      | negation _ _ ht' | operator _ _ _ _ ht' => simp [ht] at ht'
    simp only [ht, Bool.false_eq_true, if_false]
    exact read_around_comparison hst hst' hopening hclosing hread hrest
  | negation hts hbang ht =>
    obtain ⟨rfl, -⟩ : first = _ ∧ _ := List.cons.inj (he ▸ hts)
    rw [if_pos ht, he, parenthesesFault, nextIs_of_is hbang]
    exact read_around_negation hst hst' hopening hbang _
  | operator hnot hread htag hmid ht =>
    -- the comparison ends at an operator, which is no closing parenthesis
    have hother : nextIs "!" e = .ok false := by
      rw [he] at hnot ⊢
      exact hnot.nextIs (List.mem_singleton_self _)
    have hopen : Stops [")"] _ := .of_headTag hmid fun heq => by
      rw [List.mem_singleton.1 heq] at htag
      exact absurd htag (by decide)
    rw [if_pos ht, parenthesesFault, hother]
    exact read_around_unclosed hst hst' hopening hread hopen

/-- A conjunction is an expression, but not in parentheses. -/
theorem conjunction_not_in_parentheses : ∃ e inParentheses,
    tokenize .functions "1&&2" = .ok e ∧
    expression.read .functions (e ++ [Token.ending]) =
      .ok (Tree.binary .functions "&&" (Tree.leaf .functions "<number>" (.int 1))
        (Tree.leaf .functions "<number>" (.int 2)), [Token.ending]) ∧
    tokenize .functions "(1&&2)" = .ok inParentheses ∧
    expression.read .functions (inParentheses ++ [Token.ending]) = .error .unclosed :=
  ⟨_, _, rfl, rfl, rfl, rfl⟩

/-- The tokens of a comparison. -/
def relationTokens : List Token :=
  [Token.make "<number>" (some (.int 4)) 1, Token.make "<" none 2,
   Token.make "<identifier>" (some (.text "y")) 3]

/-- The tree of the comparison. -/
def relationTree : Tree :=
  Tree.binary .functions "<" (Tree.leaf .functions "<number>" (.int 4))
    (Tree.leaf .functions "<identifier>" (.text "y"))

/-- A comparison may stand in parentheses, its negation may not. -/
theorem read_in_parentheses_of_relation :
    expression.read .functions (relationTokens ++ [Token.ending]) =
      .ok (relationTree, [Token.ending]) ∧
    expression.read .functions (Token.make "(" none 0 ::
      (relationTokens ++ [Token.make ")" none 4, Token.ending])) =
      .ok (relationTree, [Token.ending]) ∧
    expression.read .functions (Token.make "(" none 0 ::
      (Token.make "!" none 0 :: relationTokens ++ [Token.make ")" none 4, Token.ending])) =
      .error (.unexpected (Token.make "!" none 0)) := by
  have hrelation : expression.read .functions (relationTokens ++ [Token.ending]) =
      .ok (relationTree, [Token.ending]) := rfl
  have hnegation : expression.read .functions
      ((Token.make "!" none 0 :: relationTokens) ++ [Token.ending]) =
      .ok (Tree.unary .functions "not" relationTree, [Token.ending]) := rfl
  exact ⟨hrelation, read_in_parentheses rfl rfl hrelation rfl rfl,
    read_in_parentheses rfl rfl hnegation rfl rfl⟩

end Rule

end Stepwise
