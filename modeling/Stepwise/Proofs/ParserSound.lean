import Stepwise.Proofs.TreeWords

/-!
# The parser follows the grammar

Whatever a rule reads is a phrase of the grammar, and the tree that it gives is the
tree of the phrase (`Rule.apply_derived`). The proof goes through the readers of the
parser one by one; each loop has an invariant that says which phrase has been read so
far.

- `Rule.Derived closed r ts t rest`: the tokens of `ts` in front of `rest` are a phrase
  that the rule `r` derives, with the tree `t`; and no `else` follows an open statement;
- `leftward_derived`, `calls_derived`, `moreExpressions_derived`, … : the loops.

That no `else` follows is what keeps the statement before an `else` closed: the parser
gives an `else` to the nearest `if` and takes no `else` for the value of a `return`.
-/

namespace Stepwise

open Grammar (Derives)
open Token (headTag Is)

namespace Rule

/-! ## Single tokens -/

/-- Where a tag is next, a token with it is. -/
theorem exists_of_headTag {ts : List Token} {tag : String} (h : headTag ts = .ok (.text tag)) :
    ∃ t rest, ts = t :: rest ∧ Is tag t := by
  cases ts with
  | nil => cases h
  | cons t rest => exact ⟨t, rest, rfl, h⟩

theorem exists_of_nextIs {ts : List Token} {tag : String} (h : nextIs tag ts = .ok true) :
    ∃ t rest, ts = t :: rest ∧ Is tag t :=
  exists_of_headTag (headTag_of_nextIs h rfl)

/-- Skipping a tag takes one token with it. -/
theorem skip_token (tag : String) (ts : List Token) :
    Yields (fun rest => ∃ t, ts = t :: rest ∧ Is tag t) (skip tag ts) := by
  refine .bind fun b hb => .ite (fun hbt => .pure ?_) fun _ => .error _
  subst hbt
  obtain ⟨t, rest, rfl, ht⟩ := exists_of_nextIs hb
  exact ⟨t, rfl, ht⟩

/-- So does demanding one. -/
theorem demand_token (tag what : String) (ts : List Token) :
    Yields (fun rest => ∃ t, ts = t :: rest ∧ Is tag t) (demand tag what ts) := by
  refine .bind fun b hb => .ite (fun hbt => .pure ?_) fun _ => .error _
  subst hbt
  obtain ⟨t, rest, rfl, ht⟩ := exists_of_nextIs hb
  exact ⟨t, rfl, ht⟩

/-- What is skipped are semicolons. -/
theorem skipSemicolons_spans : ∀ ts : List Token,
    Yields (fun rest => ∃ n, Spans ts (List.replicate n (.sign ";")) rest) (skipSemicolons ts)
  | [] => .error _
  | t :: rest => by
    refine .bind fun v hv => .ite (fun hsign => ?_) fun _ => .pure ⟨0, rfl⟩
    have ht : Is ";" t := hv.trans (congrArg Except.ok (Value.eq_text_of_isText hsign))
    intro rest' hrest'
    obtain ⟨n, hn⟩ := skipSemicolons_spans rest rest' hrest'
    exact ⟨n + 1, .cons ht hn⟩

/-- A semicolon at the head is among those that are skipped. -/
theorem skipSemicolons_spans_succ {ts : List Token} (h : nextIs ";" ts = .ok true) :
    Yields (fun rest => ∃ n, Spans ts (List.replicate (n + 1) (.sign ";")) rest)
      (skipSemicolons ts) := by
  obtain ⟨t, rest, rfl, ht⟩ := exists_of_nextIs h
  unfold skipSemicolons
  refine .bind fun v hv => ?_
  have hsign : v = .text ";" := Except.ok.inj (hv.symm.trans ht)
  subst hsign
  intro rest' hrest'
  obtain ⟨n, hn⟩ := skipSemicolons_spans rest rest' hrest'
  exact ⟨n, .cons ht hn⟩

/-- The leaf of a literal, with the word that its token bears. -/
theorem readLeaf_token {ts : List Token} {tag : String} (h : headTag ts = .ok (.text tag)) :
    Yields (fun p => ∃ t v, ts = t :: p.2 ∧ Is tag t ∧ t.field "value" = .ok v ∧
      p.1 = Tree.leaf .returns tag v) (readLeaf .returns tag ts) := by
  obtain ⟨t, rest, rfl, ht⟩ := exists_of_headTag h
  exact .bind fun v hv => .pure ⟨t, v, rfl, ht, hv, rfl⟩

/-- A parameter is one token that bears a name. -/
theorem parameter_token (ts : List Token) :
    Yields (fun p => ∃ t v, ts = t :: p.2 ∧ Token.Bears t (.name v) ∧
      p.1 = Tree.leaf .returns "<identifier>" v) (parameter .returns ts) := by
  refine .bind fun b hb => .ite (fun hbt => ?_) fun _ => .error _
  subst hbt
  intro p hp
  obtain ⟨t, v, hts, ht, hv, htree⟩ := readLeaf_token (headTag_of_nextIs hb rfl) p hp
  exact ⟨t, v, hts, ⟨ht, hv⟩, htree⟩

/-! ## What rules read -/

/-- In front of `rest` stands a phrase that the rule derives, with the tree `t`. If the phrase
is a statement that an `else` would continue, no `else` follows. -/
structure Derived (closed : Tree → Prop) (r : Rule) (ts : List Token) (t : Tree)
    (rest : List Token) : Prop where
  phrase : ∃ ws, Spans ts ws rest ∧ Derives closed (.rule r) ws t
  dangling : r ∈ statement :: forms → Tree.Open t → headTag rest ≠ .ok (.text "else")

/-- A phrase that is no statement, or a statement that no `else` would continue. -/
theorem Derived.of_closed {closed : Tree → Prop} {r : Rule} {ts rest : List Token} {t : Tree}
    {ws : List Word} (hspans : Spans ts ws rest) (hderives : Derives closed (.rule r) ws t)
    (hclosed : r ∈ statement :: forms → Tree.Closed t) : Derived closed r ts t rest :=
  ⟨⟨ws, hspans, hderives⟩, fun hr hopen => absurd hopen (hclosed hr)⟩

/-- A phrase of a rule that reads no statements. -/
theorem Derived.of_not_form {closed : Tree → Prop} {r : Rule} {ts rest : List Token} {t : Tree}
    {ws : List Word} (hr : r ∉ statement :: forms) (hspans : Spans ts ws rest)
    (hderives : Derives closed (.rule r) ws t) : Derived closed r ts t rest :=
  .of_closed hspans hderives fun hmem => absurd hmem hr

section Steps

variable {closed : Tree → Prop} {rule : Rule → List Token → Reading} {ts : List Token}
  (hclosed : ∀ t, Tree.Closed t → closed t)
  (h : ∀ r ts, Yields (fun p => Derived closed r ts p.1 p.2) (rule r ts))
include h

/-! ### Repetition -/

/-- What has been read is a phrase of the level; the next operator makes a longer one of it. -/
theorem leftward_derived {r operand : Rule} {operators : List String}
    (hlevel : r.level? = some (operand, operators)) :
    ∀ (n : Nat) (left : Tree) (ws : List Word) (mid : List Token), Spans ts ws mid →
      Derives closed (.rule r) ws left →
      Yields (fun p => ∃ ws, Spans ts ws p.2 ∧ Derives closed (.rule r) ws p.1)
        (leftward .returns rule operand operators n left mid)
  | 0, _, _, _, _, _ => .error _
  | n + 1, left, ws, mid, hspans, hleft => by
    unfold leftward
    refine .bind fun tag htag => ?_
    cases tag with
    | text tag =>
      refine .ite (fun hmem => ?_) fun _ => .pure ⟨ws, hspans, hleft⟩
      obtain ⟨t, rest, rfl, ht⟩ := exists_of_headTag htag
      refine .andThen (h operand rest) fun (right, rest') hright => ?_
      obtain ⟨⟨q, hq, hderives⟩, -⟩ := hright
      refine leftward_derived hlevel n _ _ rest' (hspans.append (.sign ht hq)) ?_
      exact .binary hlevel (List.contains_iff_mem.1 hmem) hleft hderives
    | null | bool | int | float | list | record => exact .pure ⟨ws, hspans, hleft⟩

/-- What has been read is a callable phrase; the next list of arguments makes a call of it. -/
theorem calls_derived : ∀ (n : Nat) (callee : Tree) (ws : List Word) (mid : List Token),
    Spans ts ws mid → Derives closed (.rule .callable) ws callee →
      Yields (fun p => ∃ ws, Spans ts ws p.2 ∧ Derives closed (.rule .callable) ws p.1)
        (calls .returns rule n callee mid)
  | 0, _, _, _, _, _ => .error _
  | n + 1, callee, ws, mid, hspans, hcallee => by
    refine .bind fun _ _ => .ite (fun _ => ?_) fun _ => .pure ⟨ws, hspans, hcallee⟩
    refine .andThen (h .expressionList mid) fun (arguments, rest) harguments => ?_
    obtain ⟨⟨q, hq, hderives⟩, -⟩ := harguments
    exact calls_derived n _ _ rest (hspans.append hq) (.called hcallee hderives)

/-- Behind an expression of a list: the list from that expression on. -/
theorem moreExpressions_derived : ∀ (n : Nat) (ts : List Token) (e : Tree) (ws : List Word)
    (mid : List Token), Spans ts ws mid → Derives closed (.rule .expression) ws e →
      Yields (fun p => ∃ ws, Spans ts ws p.2 ∧
        Derives closed .expressions ws (Tree.chain (e :: p.1))) (moreExpressions rule n mid)
  | 0, _, _, _, _, _, _ => .error _
  | n + 1, ts, e, ws, mid, hspans, he => by
    refine .bind fun b hb => .ite (fun hbt => ?_) fun _ => .pure ⟨ws, hspans, .lastExpression he⟩
    subst hbt
    obtain ⟨t, rest, rfl, ht⟩ := exists_of_nextIs hb
    refine .andThen (h .expression rest) fun (e', rest') he' => ?_
    obtain ⟨⟨q, hq, hderives⟩, -⟩ := he'
    refine .andThen (moreExpressions_derived n rest e' q rest' hq hderives) ?_
    rintro ⟨more, rest''⟩ ⟨qs, hqs, hmore⟩
    exact .pure ⟨_, hspans.append (.sign ht hqs), .moreExpressions he hmore⟩

omit h in
/-- Behind a name of a list: the list from that name on. -/
theorem moreParameters_derived (closed : Tree → Prop) : ∀ (n : Nat) (ts : List Token) (v : Value)
    (mid : List Token), Spans ts [.name v] mid →
      Yields (fun p => ∃ ws, Spans ts ws p.2 ∧
        Derives closed .names ws (Tree.chain (Tree.leaf .returns "<identifier>" v :: p.1)))
        (moreParameters .returns n mid)
  | 0, _, _, _, _ => .error _
  | n + 1, ts, v, mid, hspans => by
    refine .bind fun b hb => .ite (fun hbt => ?_) fun _ => .pure ⟨_, hspans, .lastName v⟩
    subst hbt
    obtain ⟨t, rest, rfl, ht⟩ := exists_of_nextIs hb
    refine .andThen (parameter_token rest) ?_
    rintro ⟨x, rest'⟩ ⟨t', v', rfl, hname, rfl⟩
    refine .andThen (moreParameters_derived closed n _ v' rest' (.one hname)) ?_
    rintro ⟨more, rest''⟩ ⟨qs, hqs, hmore⟩
    exact .pure ⟨_, hspans.append (.sign ht hqs), .moreNames v hmore⟩

/-- Behind a statement of a block and some semicolons: the statements from that one on, and
the semicolons behind the last. -/
theorem moreStatements_derived : ∀ (n : Nat) (ts : List Token) (s : Tree) (ws : List Word)
    (k : Nat) (mid : List Token), Spans ts (ws ++ List.replicate k (.sign ";")) mid →
      Derives closed (.rule .statement) ws s →
      Yields (fun p => ∃ ws k, Spans ts (ws ++ List.replicate k (.sign ";")) p.2 ∧
        Derives closed .statements ws (Tree.block (s :: p.1))) (moreStatements rule n mid)
  | 0, _, _, _, _, _, _, _ => .error _
  | n + 1, ts, s, ws, k, mid, hspans, hs => by
    refine .bind fun b hb => .ite (fun hbt => ?_) fun _ => .pure ⟨ws, k, hspans, .lastStatement hs⟩
    subst hbt
    refine .andThen (skipSemicolons_spans_succ hb) fun rest hrest => ?_
    obtain ⟨j, hj⟩ := hrest
    -- the semicolons so far and those just skipped stand in one row
    have hsigns : Spans ts (ws ++ List.replicate (k + j + 1) (.sign ";")) rest := by
      have happend := hspans.append hj
      rwa [List.append_assoc, List.replicate_append_replicate] at happend
    refine .bind fun _ _ => .ite (fun _ => ?_) fun _ => ?_
    -- a brace: they stand behind the last statement
    · exact moreStatements_derived n ts s ws (k + j + 1) rest hsigns hs
    -- another statement: they stand between two
    · refine .andThen (h .statement rest) fun (s', rest') hs' => ?_
      obtain ⟨⟨q, hq, hderives⟩, -⟩ := hs'
      refine .bind fun _ _ => .bind fun _ _ => .ite (fun _ => .error _) fun _ => ?_
      have hq' : Spans rest (q ++ List.replicate 0 (.sign ";")) rest' := by simpa using hq
      refine .andThen (moreStatements_derived n rest s' q 0 rest' hq' hderives) ?_
      rintro ⟨more, rest''⟩ ⟨qs, i, hqs, hmore⟩
      refine .pure ⟨_, i, ?_, .moreStatements (k + j) hs hmore⟩
      have happend := hsigns.append hqs
      rwa [← List.append_assoc] at happend

/-! ### Expressions -/

/-- A simple expression: the next tag says which of six forms it has. -/
theorem readSimple_derived :
    Yields (fun p => Derived closed .simple ts p.1 p.2) (readSimple .returns rule .simple ts) := by
  refine .bind fun tag htag => .ite (fun hn => ?_) fun _ => .ite (fun hb => ?_) fun _ =>
    .ite (fun hx => ?_) fun _ => .ite (fun hparen => ?_) fun _ => .ite (fun hminus => ?_) fun _ =>
    .ite (fun _ => ?_) fun _ => .error _
  -- a number, a truth value or a name is one token
  · rintro ⟨t, rest⟩ ht
    obtain ⟨tok, v, rfl, htok, hv, rfl⟩ := readLeaf_token (headTag_of_isText htag hn) _ ht
    have hword : Token.Bears tok (.number v) := ⟨htok, hv⟩
    exact .of_not_form (by decide) (.one hword) (.number v)
  · rintro ⟨t, rest⟩ ht
    have hb' := (Bool.and_eq_true_iff.1 hb).1
    obtain ⟨tok, v, rfl, htok, hv, rfl⟩ := readLeaf_token (headTag_of_isText htag hb') _ ht
    have hword : Token.Bears tok (.boolean v) := ⟨htok, hv⟩
    exact .of_not_form (by decide) (.one hword) (.boolean v)
  · rintro ⟨t, rest⟩ ht
    have hx' := (Bool.and_eq_true_iff.1 hx).1
    obtain ⟨tok, v, rfl, htok, hv, rfl⟩ := readLeaf_token (headTag_of_isText htag hx') _ ht
    have hword : Token.Bears tok (.name v) := ⟨htok, hv⟩
    exact .of_not_form (by decide) (.one hword) (.name v)
  -- an expression in parentheses
  · obtain ⟨tok, rest, rfl, htok⟩ := exists_of_headTag (headTag_of_isText htag hparen)
    refine .andThen (h .expression rest) fun (e, rest') he => .bind fun b hb => ?_
    obtain ⟨⟨q, hq, hderives⟩, -⟩ := he
    refine .ite (fun hbt => ?_) fun _ => .error _
    subst hbt
    obtain ⟨tok', rest'', rfl, htok'⟩ := exists_of_nextIs hb
    exact .pure (.of_not_form (by decide) (.sign htok (hq.append (.mark htok')))
      (.parenthesized hderives))
  -- the negative of a simple expression
  · have hminus' := (Bool.and_eq_true_iff.1 hminus).1
    obtain ⟨tok, rest, rfl, htok⟩ := exists_of_headTag (headTag_of_isText htag hminus')
    refine .andThen (h .simple rest) fun (e, rest') he => ?_
    obtain ⟨⟨q, hq, hderives⟩, -⟩ := he
    exact .pure (.of_not_form (by decide) (.sign htok hq) (.negated hderives))
  · rintro ⟨t, rest⟩ ht
    obtain ⟨⟨q, hq, hderives⟩, -⟩ := h .functionLiteral ts _ ht
    exact .of_not_form (by decide) hq (.function hderives)

/-- The operators of a level and its operands, as the parser reads them. -/
theorem readLeftward_derived {r operand : Rule} {operators : List String}
    (hlevel : r.level? = some (operand, operators)) (n : Nat) :
    Yields (fun p => Derived closed r ts p.1 p.2)
      (readLeftward .returns rule n operand operators ts) := by
  refine .andThen (h operand ts) fun (left, rest) hleft => ?_
  obtain ⟨⟨ws, hspans, hderives⟩, -⟩ := hleft
  rintro ⟨t, rest'⟩ ht
  obtain ⟨ws', hspans', hderives'⟩ :=
    leftward_derived h hlevel n left ws rest hspans (.operand hlevel hderives) _ ht
  exact .of_not_form (not_mem_forms_of_level hlevel) hspans' hderives'

/-- A negation, or a comparison without a sign before it. -/
theorem readNegation_derived :
    Yields (fun p => Derived closed .negation ts p.1 p.2) (readNegation .returns rule ts) := by
  refine .bind fun b hb => .ite (fun hbt => ?_) fun _ => ?_
  · subst hbt
    obtain ⟨tok, rest, rfl, htok⟩ := exists_of_nextIs hb
    refine .andThen (h .negation rest) fun (e, rest') he => ?_
    obtain ⟨⟨q, hq, hderives⟩, -⟩ := he
    exact .pure (.of_not_form (by decide) (.sign htok hq) (.not hderives))
  · rintro ⟨t, rest⟩ ht
    obtain ⟨⟨q, hq, hderives⟩, -⟩ := h .comparison ts _ ht
    exact .of_not_form (by decide) hq (.plain hderives)

/-- A function: the keyword, a list of names and a block. -/
theorem readFunction_derived :
    Yields (fun p => Derived closed .functionLiteral ts p.1 p.2) (readFunction rule ts) := by
  refine .andThen (skip_token _ ts) fun rest hskip => ?_
  obtain ⟨tok, rfl, htok⟩ := hskip
  refine .andThen (h .nameList rest) fun (xs, rest₁) hxs => ?_
  obtain ⟨⟨p, hp, hnames⟩, -⟩ := hxs
  refine .andThen (h .blockStatement rest₁) fun (body, rest₂) hbody => ?_
  obtain ⟨⟨q, hq, hblock⟩, -⟩ := hbody
  exact .pure (.of_not_form (by decide) (.sign htok (hp.append hq)) (.literal hnames hblock))

/-! ### Lists and blocks -/

omit h in
/-- A list of names in parentheses. -/
theorem readNameList_derived (n : Nat) :
    Yields (fun p => Derived closed .nameList ts p.1 p.2) (readNameList .returns n ts) := by
  refine .andThen (skip_token _ ts) fun rest hskip => .bind fun b hb => ?_
  obtain ⟨tok, rfl, htok⟩ := hskip
  refine .ite (fun hbt => ?_) fun _ => ?_
  · subst hbt
    obtain ⟨tok', rest', rfl, htok'⟩ := exists_of_nextIs hb
    exact .pure (.of_not_form (by decide) (.sign htok (.mark htok')) .noNames)
  · refine .andThen (parameter_token rest) ?_
    rintro ⟨x, rest₁⟩ ⟨tok', v, rfl, hname, rfl⟩
    refine .andThen (moreParameters_derived closed n _ v rest₁ (.one hname)) ?_
    rintro ⟨more, rest₂⟩ ⟨ws, hws, hnames⟩
    refine .andThen (skip_token _ rest₂) fun rest₃ hskip => .pure ?_
    obtain ⟨tok'', rfl, htok''⟩ := hskip
    exact .of_not_form (by decide) (.sign htok (hws.append (.mark htok''))) (.someNames hnames)

/-- A list of expressions in parentheses. -/
theorem readExpressionList_derived (n : Nat) :
    Yields (fun p => Derived closed .expressionList ts p.1 p.2) (readExpressionList rule n ts) := by
  refine .andThen (skip_token _ ts) fun rest hskip => .bind fun b hb => ?_
  obtain ⟨tok, rfl, htok⟩ := hskip
  refine .ite (fun hbt => ?_) fun _ => ?_
  · subst hbt
    obtain ⟨tok', rest', rfl, htok'⟩ := exists_of_nextIs hb
    exact .pure (.of_not_form (by decide) (.sign htok (.mark htok')) .noExpressions)
  · refine .andThen (h .expression rest) fun (e, rest₁) he => ?_
    obtain ⟨⟨q, hq, hderives⟩, -⟩ := he
    refine .andThen (moreExpressions_derived h n rest e q rest₁ hq hderives) ?_
    rintro ⟨more, rest₂⟩ ⟨ws, hws, hexpressions⟩
    refine .andThen (skip_token _ rest₂) fun rest₃ hskip => .pure ?_
    obtain ⟨tok', rfl, htok'⟩ := hskip
    exact .of_not_form (by decide) (.sign htok (hws.append (.mark htok')))
      (.someExpressions hexpressions)

/-- A block: the semicolons behind its opening brace, its statements, and those behind them. -/
theorem readBlock_derived (n : Nat) :
    Yields (fun p => Derived closed .blockStatement ts p.1 p.2) (readBlock rule n ts) := by
  refine .andThen (skip_token _ ts) fun rest hskip => ?_
  obtain ⟨tok, rfl, htok⟩ := hskip
  refine .andThen (skipSemicolons_spans rest) fun rest₁ hsigns => .bind fun b hb => ?_
  obtain ⟨j, hj⟩ := hsigns
  refine .ite (fun hbt => ?_) fun _ => ?_
  · subst hbt
    obtain ⟨tok', rest', rfl, htok'⟩ := exists_of_nextIs hb
    exact .pure (.of_closed (.sign htok (hj.append (.mark htok'))) (.emptyBlock j)
      fun _ => Tree.closed_of_tag rfl (by decide))
  · refine .andThen (h .statement rest₁) fun (s, rest₂) hs => ?_
    obtain ⟨⟨q, hq, hderives⟩, -⟩ := hs
    have hq' : Spans rest₁ (q ++ List.replicate 0 (.sign ";")) rest₂ := by simpa using hq
    refine .andThen (moreStatements_derived h n rest₁ s q 0 rest₂ hq' hderives) ?_
    rintro ⟨more, rest₃⟩ ⟨ws, k, hws, hstatements⟩
    refine .andThen (skip_token _ rest₃) fun rest₄ hskip => .pure ?_
    obtain ⟨tok', rfl, htok'⟩ := hskip
    have hspans := Spans.sign htok ((hj.append hws).append (.mark htok'))
    -- a block is closed, whatever its last statement is
    have htag : (Tree.block (s :: more)).field "tag" = .ok (.text "block") := by
      cases more <;> rfl
    rw [← List.append_assoc] at hspans
    exact .of_closed hspans (.block j k hstatements) fun _ => Tree.closed_of_tag htag (by decide)

/-! ### Statements -/

/-- An assignment: a name, the sign and an expression. -/
theorem readAssignment_derived :
    Yields (fun p => Derived closed .assignment ts p.1 p.2) (readAssignment .returns rule ts) := by
  refine .bind fun b hb => .ite (fun _ => .error _) fun hbf => ?_
  have hbt : b = true := by simpa using hbf
  subst hbt
  obtain ⟨tok, rest, rfl, htok⟩ := exists_of_nextIs hb
  refine .bind fun v hv => .andThen (demand_token _ _ rest) fun rest₁ hdemand => ?_
  obtain ⟨tok', rfl, htok'⟩ := hdemand
  refine .andThen (h .expression rest₁) fun (e, rest₂) he => ?_
  obtain ⟨⟨q, hq, hderives⟩, -⟩ := he
  have hname : Token.Bears tok (.name v) := ⟨htok, hv⟩
  exact .pure (.of_closed (.cons hname (.sign htok' hq)) (.assignment v hderives)
    fun _ => Tree.closed_of_tag rfl (by decide))

/-- The parentheses of a condition and the expression between them. -/
theorem readCondition_derived (closing : String) :
    Yields (fun p => ∃ q, Spans ts (.sign "(" :: q ++ [.sign ")"]) p.2 ∧
      Derives closed (.rule .expression) q p.1) (readCondition rule closing ts) := by
  refine .andThen (demand_token _ _ ts) fun rest hdemand => ?_
  obtain ⟨tok, rfl, htok⟩ := hdemand
  refine .andThen (h .expression rest) fun (c, rest₁) hc => ?_
  obtain ⟨⟨q, hq, hderives⟩, -⟩ := hc
  refine .andThen (demand_token _ _ rest₁) fun rest₂ hdemand => .pure ?_
  obtain ⟨tok', rfl, htok'⟩ := hdemand
  exact ⟨q, .sign htok (hq.append (.mark htok')), hderives⟩

include hclosed in
/-- An `else` is read only behind a statement that is closed. -/
theorem readIf_derived :
    Yields (fun p => Derived closed .ifStatement ts p.1 p.2) (readIf .returns rule ts) := by
  refine .andThen (skip_token _ ts) fun rest hskip => ?_
  obtain ⟨tok, rfl, htok⟩ := hskip
  refine .andThen (readCondition_derived h _) ?_
  rintro ⟨c, rest₁⟩ ⟨p, hp, hcondition⟩
  refine .andThen (h .statement rest₁) fun (s, rest₂) hs => .ite (fun _ => ?_) fun hst => ?_
  · obtain ⟨⟨q, hq, hstatement⟩, hdangling⟩ := hs
    have hspans := Spans.sign htok (hp.append hq)
    refine .bind fun b hb => .ite (fun hbt => ?_) fun hbf => ?_
    · subst hbt
      obtain ⟨tok', rest₃, rfl, htok'⟩ := exists_of_nextIs hb
      -- an open statement is not followed by an `else`, and one is here
      have hs' : closed s := hclosed s fun hopen => hdangling (by simp) hopen htok'
      refine .andThen (h .statement rest₃) fun (a, rest₄) ha => .pure ?_
      obtain ⟨⟨q', hq', halternative⟩, hdangling'⟩ := ha
      have hall := hspans.append (.sign htok' hq')
      refine ⟨⟨_, ?_, .ifElse hcondition hstatement hs' halternative⟩, fun _ hopen => ?_⟩
      · simpa using hall
      · exact hdangling' (by simp) (Tree.open_alternative hopen)
    · refine .pure ⟨⟨_, by simpa using hspans, .ifThen hcondition hstatement⟩, fun _ _ helse => ?_⟩
      -- no `else` is next, as has just been looked up
      have hfalse : b = false := by simpa using hbf
      subst hfalse
      unfold nextIs at hb
      rw [helse] at hb
      cases hb
  · exact absurd rfl hst

/-- A `while` is as open as its statement. -/
theorem readWhile_derived :
    Yields (fun p => Derived closed .whileStatement ts p.1 p.2) (readWhile .returns rule ts) := by
  refine .andThen (skip_token _ ts) fun rest hskip => ?_
  obtain ⟨tok, rfl, htok⟩ := hskip
  refine .andThen (readCondition_derived h _) ?_
  rintro ⟨c, rest₁⟩ ⟨p, hp, hcondition⟩
  refine .andThen (h .statement rest₁) fun (s, rest₂) hs => .pure ?_
  obtain ⟨⟨q, hq, hstatement⟩, hdangling⟩ := hs
  have hspans := Spans.sign htok (hp.append hq)
  refine ⟨⟨_, by simpa using hspans, .loop hcondition hstatement⟩, fun _ hopen => ?_⟩
  exact hdangling (by simp) (Tree.open_body hopen)

/-- Without a value, a `return` is followed by something that is no `else`. -/
theorem readReturn_derived :
    Yields (fun p => Derived closed .returnStatement ts p.1 p.2) (readReturn rule ts) := by
  refine .andThen (skip_token _ ts) fun rest hskip => .bind fun tag htag => ?_
  obtain ⟨tok, rfl, htok⟩ := hskip
  refine .ite (fun hend => .pure ?_) fun _ => ?_
  · refine ⟨⟨_, .mark htok, .giveBack⟩, fun _ _ helse => ?_⟩
    cases htag.symm.trans helse
    simp [Value.isText, Value.isNull] at hend
  · refine .andThen (h .expression rest) ?_
    rintro ⟨e, rest₁⟩ ⟨⟨q, hq, hderives⟩, -⟩
    refine .pure ?_
    exact .of_closed (.sign htok hq) (.giveBackValue hderives) fun _ => Tree.closed_giveBack e

/-- A `print` and its list of expressions. -/
theorem readPrint_derived :
    Yields (fun p => Derived closed .printStatement ts p.1 p.2) (readPrint rule ts) := by
  refine .andThen (skip_token _ ts) fun rest hskip => ?_
  obtain ⟨tok, rfl, htok⟩ := hskip
  refine .andThen (h .expressionList rest) fun (es, rest₁) hes => .pure ?_
  obtain ⟨⟨q, hq, hderives⟩, -⟩ := hes
  exact .of_closed (.sign htok hq) (.print hderives) fun _ => Tree.closed_of_tag rfl (by decide)

/-- The assignment that a function statement stands for has the keyword at the head of its
expression, where no other word has this tag. -/
theorem readFunctionStatement_derived :
    Yields (fun p => Derived closed .functionStatement ts p.1 p.2)
      (readFunctionStatement .returns rule ts) := by
  refine .andThen (skip_token _ ts) fun rest hskip => ?_
  obtain ⟨keyword, rfl, hkeyword⟩ := hskip
  refine .andThen (skip_token _ rest) fun rest₁ hskip => ?_
  obtain ⟨name, rfl, hname⟩ := hskip
  refine .bind fun position hposition => ?_
  rintro ⟨t, rest₂⟩ ht
  obtain ⟨⟨ws, hspans, hderives⟩, -⟩ := h .assignment _ _ ht
  -- only one rule derives an assignment, and its phrase starts with the three tokens
  cases hderives with
  | operand hr => cases hr
  | binary hr => cases hr
  | @assignment v p e hexpression =>
    obtain ⟨_, _, ⟨⟩, hword, _, _, ⟨⟩, -, hp⟩ := hspans
    obtain ⟨w, q, rfl, hstarts⟩ := hexpression.starts rfl
    obtain ⟨_, _, ⟨⟩, hfirst, hq⟩ := hp
    -- the expression starts with the keyword and hence is a function
    have hfunction := Word.eq_function_of_starts hstarts (hfirst.is.eq hkeyword)
    subst hfunction
    have hdefine : Token.Bears keyword .define := ⟨hkeyword, position, hposition⟩
    have hdefined : Token.Bears name (.defined v) := hword
    exact .of_closed (.cons hdefine (.cons hdefined hq)) (.functionStatement v hexpression)
      fun _ => Tree.closed_of_tag rfl (by decide)

/-- A statement is of one of the forms, whichever the next tags announce. -/
theorem readStatement_derived :
    Yields (fun p => Derived closed .statement ts p.1 p.2) (readStatement .returns rule ts) := by
  -- every form is a statement, with what is known of an `else` behind it
  have hform : ∀ r ∈ forms, Yields (fun p => Derived closed .statement ts p.1 p.2) (rule r ts) := by
    rintro r hr ⟨t, rest⟩ ht
    obtain ⟨⟨ws, hspans, hderives⟩, hdangling⟩ := h r ts _ ht
    exact ⟨⟨ws, hspans, .statement hr hderives⟩, fun _ => hdangling (List.mem_cons_of_mem _ hr)⟩
  have hexpression := hform .expression (by decide)
  refine .bind fun _ _ => .ite (fun _ => hform .ifStatement (by decide)) fun _ =>
    .ite (fun _ => hform .whileStatement (by decide)) fun _ =>
    .ite (fun _ => .bind fun _ _ => ?_) fun _ =>
    .ite (fun _ => hform .returnStatement (by decide)) fun _ =>
    .ite (fun _ => hform .printStatement (by decide)) fun _ =>
    .ite (fun _ => hform .blockStatement (by decide)) fun _ =>
    .ite (fun _ => .bind fun _ _ => ?_) fun _ => hexpression
  · exact .ite (fun _ => hform .functionStatement (by decide)) fun _ => hexpression
  · exact .ite (fun _ => hform .assignment (by decide)) fun _ => hexpression

include hclosed in
/-- **A rule reads a phrase of the grammar** if the rules inside it do. -/
theorem step_derived (n : Nat) (r : Rule) :
    Yields (fun p => Derived closed r ts p.1 p.2) (step .returns rule n r ts) := by
  cases r with
  | statement => exact readStatement_derived h
  | ifStatement => exact readIf_derived hclosed h
  | whileStatement => exact readWhile_derived h
  | blockStatement => exact readBlock_derived h n
  | returnStatement => exact readReturn_derived h
  | printStatement => exact readPrint_derived h
  | functionStatement => exact readFunctionStatement_derived h
  | assignment => exact readAssignment_derived h
  | expression =>
    rintro ⟨t, rest⟩ ht
    obtain ⟨⟨ws, hspans, hderives⟩, -⟩ := h .disjunction ts _ ht
    have hexpression := Derives.expression hderives
    exact .of_closed hspans hexpression fun _ => hexpression.closed_of_expression
  | disjunction => exact readLeftward_derived h rfl n
  | conjunction => exact readLeftward_derived h rfl n
  | negation => exact readNegation_derived h
  | comparison => exact readLeftward_derived h rfl n
  | sum => exact readLeftward_derived h rfl n
  | product => exact readLeftward_derived h rfl n
  | factor =>
    rintro ⟨t, rest⟩ ht
    obtain ⟨⟨ws, hspans, hderives⟩, -⟩ := h .callable ts _ ht
    exact .of_not_form (by decide) hspans (.factor hderives)
  | callable =>
    refine .andThen (h .simple ts) fun (callee, rest) hcallee => ?_
    obtain ⟨⟨ws, hspans, hderives⟩, -⟩ := hcallee
    rintro ⟨t, rest'⟩ ht
    obtain ⟨ws', hspans', hderives'⟩ :=
      calls_derived h n callee ws rest hspans (.uncalled hderives) _ ht
    exact .of_not_form (by decide) hspans' hderives'
  | simple => exact readSimple_derived h
  | functionLiteral => exact readFunction_derived h
  | nameList => exact readNameList_derived n
  | expressionList => exact readExpressionList_derived h n

end Steps

/-- **Whatever a rule reads is a phrase of the grammar**, whichever closed statements the
grammar allows before an `else`. -/
theorem apply_derived {closed : Tree → Prop} (hclosed : ∀ t, Tree.Closed t → closed t) :
    ∀ (n : Nat) (r : Rule) (ts : List Token),
      Yields (fun p => Derived closed r ts p.1 p.2) (apply .returns n r ts)
  | 0, _, _ => .error _
  | n + 1, r, _ => step_derived hclosed (apply_derived hclosed n) n r

/-- **Soundness of the parser.** Whatever a rule reads is a phrase that the written grammar
derives from the rule, its tree is the tree of the phrase, and the words of the tree are those of
the phrase that are no parentheses, commas, semicolons or braces, in their order. -/
theorem reading_is_derivation {r : Rule} {ts rest : List Token} {t : Tree}
    (h : r.read .returns ts = .ok (t, rest)) :
    ∃ p ws, ts = p ++ rest ∧ List.Forall₂ Token.Bears p ws ∧
      Derives (fun _ => True) (.rule r) ws t ∧ Word.kept ws = t.words := by
  have hall : ∀ t : Tree, Tree.Closed t → True := fun _ _ => trivial
  obtain ⟨⟨ws, hspans, hderives⟩, -⟩ := apply_derived hall _ r ts _ h
  obtain ⟨p, hts, hbears⟩ := Spans.iff_forall₂.1 hspans
  exact ⟨p, ws, hts, hbears, hderives, hderives.words_eq⟩

section CalledFunction

open Stepwise.Tree (leaf)

/-- The tokens of `function f(x){;x-1-2;}(7)` and the end. -/
def calledFunction : List Token :=
  [.make "function" none 0, .make "<identifier>" (some (.text "f")) 9, .make "(" none 10,
   .make "<identifier>" (some (.text "x")) 11, .make ")" none 12, .make "\x7b" none 13,
   .make ";" none 14, .make "<identifier>" (some (.text "x")) 15, .make "-" none 16,
   .make "<number>" (some (.int 1)) 17, .make "-" none 18, .make "<number>" (some (.int 2)) 19,
   .make ";" none 20, .make "\x7d" none 21, .make "(" none 22,
   .make "<number>" (some (.int 7)) 23, .make ")" none 24, .ending]

/-- The tree of `f = function(x){(x-1)-2}(7)`. -/
def calledFunctionTree : Tree :=
  let x := leaf .returns "<identifier>" (.text "x")
  let difference := Tree.binary .returns "-"
    (Tree.binary .returns "-" x (leaf .returns "<number>" (.int 1)))
    (leaf .returns "<number>" (.int 2))
  Tree.assign .returns (leaf .returns "<identifier>" (.text "f"))
    (Tree.call .returns (Tree.function x (Tree.block [difference]))
      (leaf .returns "<number>" (.int 7)))

/-- The function of a function statement may be called on the spot: the name gets what the call
gives. -/
theorem reading_is_derivation_of_called_function :
    statement.read .returns calledFunction = .ok (calledFunctionTree, [.ending]) ∧
    ∃ p ws, calledFunction = p ++ [.ending] ∧ List.Forall₂ Token.Bears p ws ∧
      Derives (fun _ => True) (.rule .statement) ws calledFunctionTree ∧
      Word.kept ws = calledFunctionTree.words :=
  ⟨rfl, reading_is_derivation rfl⟩

end CalledFunction

end Rule

end Stepwise
