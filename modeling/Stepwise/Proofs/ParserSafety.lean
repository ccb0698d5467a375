import Mathlib.Logic.Relation
import Mathlib.Tactic.ByContra
import Stepwise.Proofs.ParserBudget
import Stepwise.Proofs.ParserImage

/-!
# The parser stays within its tokens

On the tokens of a text the parser gives a tree or says what is wrong with the text: it never asks
for a token or a field that is not there (`parse_safe`). What keeps it from running over the end is
the token behind the last one. No rule has a use for it, so that it is never consumed.

- `Rule.Guarded`: tokens that hold what their tags say, with the ending behind them;
- `Rule.Reports P x`: the reading `x` gives something with the property `P`, or reports a fault
  of the text. One lemma for each reader shows that rules do so on guarded tokens, and leave
  guarded tokens behind (`step_reports`);
- `Rule.Asks`: one application of a rule uses another one. The rules that are used in the course
  of reading a text are those that can be reached in this way. They all get guarded tokens
  (`Guarded.asks`), and no chain of them goes on for ever (`asks_wellFounded`).
-/

namespace Stepwise

/-! ## Guarded tokens -/

/-- The token has a tag, a position and the value that its tag asks for. -/
structure Token.Full (st : Stage) (t : Token) : Prop extends Token.Sound st t where
  tag : ∃ tag, t.field "tag" = .ok (.text tag)
  position : ∃ p, t.field "position" = .ok p

/-- Every token has its tag and its position. -/
theorem Token.fields_make (tag : String) (value : Option Value) (position : Nat) :
    (make tag value position).field "tag" = .ok (.text tag) ∧
    (make tag value position).field "position" = .ok (.int position) := by
  cases value with
  | none => exact ⟨rfl, rfl⟩
  | some v => exact ⟨rfl, rfl⟩

/-- Lexemes make tokens with all that the rules ask of them. -/
theorem Lexeme.token_full {st : Stage} {x : Lexeme} (hx : x.WellFormed st) :
    Yields (Token.Full st) (token st x) := by
  have hmade : Yields (fun t => ∃ tag value position, t = Token.make tag value position)
      (token st x) := by
    simp only [token]
    split
    · exact .bind fun v _ => .pure ⟨_, _, _, rfl⟩
    all_goals exact .pure ⟨_, _, _, rfl⟩
  intro t ht
  have hsound := token_sound hx t ht
  obtain ⟨tag, value, position, rfl⟩ := hmade t ht
  obtain ⟨htag, hposition⟩ := Token.fields_make tag value position
  exact ⟨hsound, ⟨_, htag⟩, ⟨_, hposition⟩⟩

/-- The tokens of a text are full. -/
theorem tokenize_full (st : Stage) (code : String) :
    Yields (fun ts => ∀ t ∈ ts, Token.Full st t) (tokenize st code) := by
  refine .bind fun xs hxs => mapM_yields fun x hx => ?_
  exact Lexeme.token_full (Lexeme.scanFrom_sound st code.toList 0 0 xs hxs x hx)

namespace Rule

open Token (headTag)

/-- Full tokens, and behind them the ending. -/
inductive Guarded (st : Stage) : List Token → Prop
  | ending : Guarded st [Token.ending]
  | cons {t : Token} {ts : List Token} : Token.Full st t → Guarded st ts → Guarded st (t :: ts)

namespace Guarded

variable {st : Stage} {ts : List Token}

/-- The parser puts the ending behind full tokens. -/
theorem append_ending (h : ∀ t ∈ ts, Token.Full st t) : Guarded st (ts ++ [Token.ending]) := by
  induction ts with
  | nil => exact .ending
  | cons t ts ih =>
    simp only [List.mem_cons, forall_eq_or_imp] at h
    exact .cons h.1 (ih h.2)

theorem getLast? (h : Guarded st ts) : ts.getLast? = some Token.ending := by
  induction h with
  | ending => rfl
  | cons _ _ ih =>
    rw [List.getLast?_cons, ih]
    rfl

/-- There is always a next token with a tag. -/
theorem exists_headTag (h : Guarded st ts) : ∃ v, headTag ts = .ok v := by
  cases h with
  | ending => exact ⟨.null, rfl⟩
  | cons ht _ =>
    obtain ⟨tag, htag⟩ := ht.tag
    exact ⟨_, htag⟩

/-- A token with a tag that is a text is not the ending. -/
theorem exists_cons (h : Guarded st ts) {tag : String} (htag : headTag ts = .ok (.text tag)) :
    ∃ t rest, ts = t :: rest ∧ Token.Full st t ∧ Guarded st rest := by
  cases h with
  | ending => cases htag
  | cons ht hrest => exact ⟨_, _, rfl, ht, hrest⟩

theorem drop (h : Guarded st ts) {tag : String} (htag : headTag ts = .ok (.text tag)) :
    Guarded st (ts.drop 1) := by
  obtain ⟨t, rest, rfl, -, hrest⟩ := h.exists_cons htag
  exact hrest

end Guarded

/-! ## Faults of the text -/

/-- The fault is one that rules report of a text, or the budget's. -/
def Reported (e : Fault) : Prop :=
  e.kind = .general ∨ e.kind = .assertion ∨ e.kind = .budget

namespace Reported

theorem general {e : Fault} (h : e.kind = .general) : Reported e := .inl h

theorem violation : Reported .violation := .inr (.inl rfl)

theorem exhausted : Reported .exhausted := .inr (.inr rfl)

end Reported

/-- The reading gives something with the property, or reports a fault of the text. -/
abbrev Reports {α : Type} (P : α → Prop) (x : Except Fault α) : Prop :=
  Answers Reported P x

/-- The reading leaves guarded tokens behind, unless it fails. -/
abbrev Leaves {α : Type} (st : Stage) (x : Except Fault (α × List Token)) : Prop :=
  Reports (fun p => Guarded st p.2) x

/-! ### Single tokens -/

/-- The tags of the tokens whose values the rules look at. -/
inductive Valued (st : Stage) : String → Prop
  | number : Valued st st.numberTag
  | boolean : st.has .booleans = true → Valued st st.booleanTag
  | name : Valued st st.nameTag

section Tokens

variable {st : Stage} {ts : List Token} (hts : Guarded st ts)
include hts

/-- Looking at the next token never fails. -/
theorem headTag_reports : Reports (fun v => headTag ts = .ok v) (headTag ts) := by
  obtain ⟨v, hv⟩ := hts.exists_headTag
  rw [hv]
  exact .pure rfl

/-- If the next token is the one asked for, it has this tag. -/
theorem nextIs_reports (tag : String) :
    Reports (fun b => b = true → headTag ts = .ok (.text tag)) (nextIs tag ts) := by
  refine (headTag_reports hts).bind fun v hv => .pure fun htext => ?_
  exact headTag_of_isText hv htext

/-- What is skipped has the tag. -/
theorem skip_reports_tag (tag : String) :
    Reports (fun rest => headTag ts = .ok (.text tag) ∧ rest = ts.drop 1) (skip tag ts) :=
  (nextIs_reports hts tag).bind fun _ hb =>
    .ite (fun htrue => .pure ⟨hb htrue, rfl⟩) fun _ => .error .violation

/-- Skipping stays in front of the ending, whose tag is not asked for. -/
theorem skip_reports (tag : String) : Reports (Guarded st) (skip tag ts) := by
  refine (skip_reports_tag hts tag).imp (fun _ h => h) ?_
  rintro rest ⟨htag, rfl⟩
  exact hts.drop htag

theorem demand_reports (tag what : String) : Reports (Guarded st) (demand tag what ts) :=
  (nextIs_reports hts tag).bind fun _ hb =>
    .ite (fun htrue => .pure (hts.drop (hb htrue))) fun _ => .error (.general rfl)

theorem skipSemicolons_reports : Reports (Guarded st) (skipSemicolons ts) := by
  induction hts with
  | ending => exact .pure .ending
  | @cons t ts ht hts ih =>
    obtain ⟨tag, htag⟩ := ht.tag
    unfold skipSemicolons
    rw [htag]
    exact .ite (fun _ => ih) fun _ => .pure (.cons ht hts)

/-- The tokens whose values the rules look at have one. -/
theorem headValue_reports {tag : String} (htag : headTag ts = .ok (.text tag))
    (hvalue : Valued st tag) : Reports (fun _ => True) (headValue ts) := by
  obtain ⟨t, rest, rfl, ht, -⟩ := hts.exists_cons htag
  have hhead : ∃ v, headValue (t :: rest) = .ok v := by
    -- there are three kinds of such tokens, and each has its value
    cases hvalue with
    | number =>
      obtain ⟨v, hv⟩ := ht.number htag
      exact ⟨_, hv⟩
    | boolean hst =>
      obtain ⟨v, hv⟩ := ht.boolean hst htag
      exact ⟨_, hv⟩
    | name =>
      obtain ⟨v, hv⟩ := ht.name htag
      exact ⟨_, hv⟩
  obtain ⟨v, hv⟩ := hhead
  rw [hv]
  trivial

theorem readLeaf_reports {tag : String} (htag : headTag ts = .ok (.text tag))
    (hvalue : Valued st tag) : Leaves st (readLeaf st tag ts) :=
  (headValue_reports hts htag hvalue).bind fun _ _ => .pure (hts.drop htag)

/-- A parameter is a name, or the text is at fault. -/
theorem parameter_reports : Leaves st (parameter st ts) :=
  (nextIs_reports hts _).bind fun _ hb =>
    .ite (fun htrue => readLeaf_reports hts (hb htrue) .name) fun _ =>
      .error .violation

end Tokens

section Reports

variable {st : Stage} {rule : Rule → List Token → Reading} {ts : List Token}
  (h : ∀ r ts, Guarded st ts → Leaves st (rule r ts))
include h

/-! ### Repetition -/

/-- Operators and operands are taken as long as they go on. -/
theorem leftward_reports {operand : Rule} {operators : List String} :
    ∀ (n : Nat) (left : Tree) {ts : List Token}, Guarded st ts →
      Leaves st (leftward st rule operand operators n left ts)
  | 0, _, _, _ => .error .exhausted
  | n + 1, left, ts, hts => by
    unfold leftward
    refine (headTag_reports hts).bind fun tag htag => ?_
    cases tag with
    | text tag =>
      refine .ite (fun _ => ?_) fun _ => .pure hts
      exact (h operand _ (hts.drop htag)).bind fun p hp => leftward_reports n _ hp
    | null | bool | int | float | list | record => exact .pure hts

theorem calls_reports : ∀ (n : Nat) (callee : Tree) {ts : List Token}, Guarded st ts →
    Leaves st (calls st rule n callee ts)
  | 0, _, _, _ => .error .exhausted
  | n + 1, callee, ts, hts => by
    unfold calls
    refine (nextIs_reports hts _).bind fun _ _ => .ite (fun _ => ?_) fun _ => .pure hts
    exact (h .expressionList ts hts).bind fun p hp => calls_reports n _ hp

/-- Behind a semicolon there may be the end of the block. -/
theorem moreStatements_reports : ∀ (n : Nat) {ts : List Token}, Guarded st ts →
    Leaves st (moreStatements rule n ts)
  | 0, _, _ => .error .exhausted
  | n + 1, ts, hts => by
    unfold moreStatements
    refine (nextIs_reports hts _).bind fun _ _ => .ite (fun _ => ?_) fun _ => .pure hts
    refine (skipSemicolons_reports hts).bind fun ts₁ h₁ => (nextIs_reports h₁ _).bind fun _ _ => ?_
    refine .ite (fun _ => moreStatements_reports n h₁) fun _ => ?_
    refine (h .statement ts₁ h₁).bind fun p hp => (nextIs_reports hp _).bind fun _ _ => ?_
    refine (nextIs_reports hp _).bind fun _ _ => .ite (fun _ => .error .violation) fun _ => ?_
    exact (moreStatements_reports n hp).bind fun _ hq => .pure hq

theorem moreExpressions_reports : ∀ (n : Nat) {ts : List Token}, Guarded st ts →
    Leaves st (moreExpressions rule n ts)
  | 0, _, _ => .error .exhausted
  | n + 1, ts, hts => by
    unfold moreExpressions
    refine (nextIs_reports hts _).bind fun _ hb => .ite (fun htrue => ?_) fun _ => .pure hts
    refine (h .expression _ (hts.drop (hb htrue))).bind fun p hp => ?_
    exact (moreExpressions_reports n hp).bind fun _ hq => .pure hq

omit h in
theorem moreParameters_reports : ∀ (n : Nat) {ts : List Token}, Guarded st ts →
    Leaves st (moreParameters st n ts)
  | 0, _, _ => .error .exhausted
  | n + 1, ts, hts => by
    unfold moreParameters
    refine (nextIs_reports hts _).bind fun _ hb => .ite (fun htrue => ?_) fun _ => .pure hts
    refine (parameter_reports (hts.drop (hb htrue))).bind fun p hp => ?_
    exact (moreParameters_reports n hp).bind fun _ hq => .pure hq

/-! ### Expressions -/

variable (hts : Guarded st ts)
include hts

/-- Leaves, parentheses, a minus, a function literal, or a fault of the text. -/
theorem readSimple_reports (operand : Rule) : Leaves st (readSimple st rule operand ts) := by
  refine (headTag_reports hts).bind fun tag htag => ?_
  have hhead : ∀ {s : String}, tag.isText s = true → headTag ts = .ok (.text s) :=
    fun hs => headTag_of_isText htag hs
  refine .ite (fun hs => ?_) fun _ => .ite (fun hs => ?_) fun _ => .ite (fun hs => ?_) fun _ =>
    .ite (fun hs => ?_) fun _ => .ite (fun hs => ?_) fun _ => .ite (fun _ => ?_) fun _ => ?_
  -- number, truth value and name: the tag says that the token has a value
  · exact readLeaf_reports hts (hhead hs) .number
  · rw [Bool.and_eq_true] at hs
    exact readLeaf_reports hts (hhead hs.1) (.boolean hs.2)
  · rw [Bool.and_eq_true] at hs
    exact readLeaf_reports hts (hhead hs.1) .name
  -- parentheses, which have to be closed
  · refine (h _ _ (hts.drop (hhead hs))).bind fun p hp => (nextIs_reports hp _).bind fun _ hb => ?_
    exact .ite (fun htrue => .pure (hp.drop (hb htrue))) fun _ => .error (.general rfl)
  · rw [Bool.and_eq_true] at hs
    exact (h operand _ (hts.drop (hhead hs.1))).bind fun _ hp => .pure hp
  · exact h .functionLiteral ts hts
  · exact .error (.general rfl)

/-- At the last stage a factor is a callable expression, before that a simple one or a call. -/
theorem readFactor_reports : Leaves st (readFactor st rule ts) := by
  cases st with
  | returns => exact h .callable ts hts
  | functions =>
    refine (nextIs_reports hts _).bind fun _ hb => .ite (fun htrue => ?_) fun _ =>
      readSimple_reports h hts _
    refine (readLeaf_reports hts (hb htrue) .name).bind fun p hp => ?_
    refine (nextIs_reports hp _).bind fun _ _ => .ite (fun _ => ?_) fun _ => .pure hp
    exact (h .expressionList _ hp).bind fun _ hq => .pure hq
  | expressions | assignments | booleans | conditions | blocks | scopes =>
    exact readSimple_reports h hts _

theorem readLeftward_reports (n : Nat) (operand : Rule) (operators : List String) :
    Leaves st (readLeftward st rule n operand operators ts) :=
  (h operand ts hts).bind fun _ hp => leftward_reports h n _ hp

theorem readNegation_reports : Leaves st (readNegation st rule ts) := by
  refine (nextIs_reports hts _).bind fun _ hb => .ite (fun htrue => ?_) fun _ => ?_
  · exact (h .negation _ (hts.drop (hb htrue))).bind fun _ hp => .pure hp
  · exact h .comparison ts hts

/-! ### Lists and blocks -/

/-- A block ends with its brace, or the text is at fault. -/
theorem readBlock_reports (n : Nat) : Leaves st (readBlock rule n ts) := by
  refine (skip_reports hts _).bind fun ts₁ h₁ => (skipSemicolons_reports h₁).bind fun ts₂ h₂ => ?_
  refine (nextIs_reports h₂ _).bind fun _ hb => .ite (fun htrue => .pure (h₂.drop (hb htrue))) ?_
  intro _
  refine (h .statement ts₂ h₂).bind fun p hp => (moreStatements_reports h n hp).bind fun q hq => ?_
  exact (skip_reports hq _).bind fun _ hrest => .pure hrest

omit h in
theorem readNameList_reports (n : Nat) : Leaves st (readNameList st n ts) := by
  refine (skip_reports hts _).bind fun ts₁ h₁ => (nextIs_reports h₁ _).bind fun _ hb => ?_
  refine .ite (fun htrue => .pure (h₁.drop (hb htrue))) fun _ => ?_
  refine (parameter_reports h₁).bind fun p hp => (moreParameters_reports n hp).bind fun q hq => ?_
  exact (skip_reports hq _).bind fun _ hrest => .pure hrest

theorem readExpressionList_reports (n : Nat) : Leaves st (readExpressionList rule n ts) := by
  refine (skip_reports hts _).bind fun ts₁ h₁ => (nextIs_reports h₁ _).bind fun _ hb => ?_
  refine .ite (fun htrue => .pure (h₁.drop (hb htrue))) fun _ => ?_
  refine (h .expression ts₁ h₁).bind fun p hp => ?_
  refine (moreExpressions_reports h n hp).bind fun q hq => ?_
  exact (skip_reports hq _).bind fun _ hrest => .pure hrest

theorem readFunction_reports : Leaves st (readFunction rule ts) := by
  refine (skip_reports hts _).bind fun ts₁ h₁ => (h .nameList ts₁ h₁).bind fun p hp => ?_
  exact (h .blockStatement _ hp).bind fun _ hq => .pure hq

/-! ### Statements -/

theorem readCondition_reports (closing : String) : Leaves st (readCondition rule closing ts) := by
  refine (demand_reports hts _ _).bind fun ts₁ h₁ => (h .expression ts₁ h₁).bind fun p hp => ?_
  exact (demand_reports hp _ _).bind fun _ hrest => .pure hrest

/-- An `if` looks for an `else` behind its statement. -/
theorem readIf_reports : Leaves st (readIf st rule ts) := by
  refine (skip_reports hts _).bind fun ts₁ h₁ => (readCondition_reports h h₁ _).bind fun p hp => ?_
  refine (h .statement _ hp).bind fun q hq => .ite (fun _ => ?_) fun _ => .pure hq
  refine (nextIs_reports hq _).bind fun _ hb => .ite (fun htrue => ?_) fun _ => .pure hq
  exact (h .statement _ (hq.drop (hb htrue))).bind fun _ ha => .pure ha

theorem readWhile_reports : Leaves st (readWhile st rule ts) := by
  refine (skip_reports hts _).bind fun ts₁ h₁ => (readCondition_reports h h₁ _).bind fun p hp => ?_
  exact (h .statement _ hp).bind fun _ hq => .pure hq

theorem readReturn_reports : Leaves st (readReturn rule ts) := by
  refine (skip_reports hts _).bind fun ts₁ h₁ => (headTag_reports h₁).bind fun _ _ => ?_
  refine .ite (fun _ => .pure h₁) fun _ => ?_
  exact (h .expression ts₁ h₁).bind fun _ hp => .pure hp

theorem readPrint_reports : Leaves st (readPrint rule ts) :=
  (skip_reports hts _).bind fun ts₁ h₁ => (h .expressionList ts₁ h₁).bind fun _ hp => .pure hp

/-- An assignment starts with a name, or the rule is applied where it does not hold. -/
theorem readAssignment_reports : Leaves st (readAssignment st rule ts) := by
  refine (nextIs_reports hts _).bind fun b hb =>
    .ite (fun _ => .error (.general rfl)) fun hnot => ?_
  have htag := hb (by simpa using hnot)
  refine (headValue_reports hts htag .name).bind fun _ _ => ?_
  refine (demand_reports (hts.drop htag) _ _).bind fun ts₁ h₁ => ?_
  exact (h .expression ts₁ h₁).bind fun _ hp => .pure hp

/-- The sign that is put in is full: it has the position of the keyword. -/
theorem readFunctionStatement_reports : Leaves st (readFunctionStatement st rule ts) := by
  -- the two tokens in front are those that were skipped
  refine (skip_reports_tag hts _).bind fun _ hkeyword => ?_
  obtain ⟨keyword, ts₁, rfl, hfull, h₁⟩ := hts.exists_cons hkeyword.1
  refine (skip_reports_tag h₁ _).bind fun _ hname => ?_
  obtain ⟨name, rest, rfl, hfull', hrest⟩ := h₁.exists_cons hname.1
  obtain ⟨position, hposition⟩ := hfull.position
  simp only [hposition]
  refine h .assignment _ (.cons hfull' (.cons ?_ (.cons hfull hrest)))
  -- the sign is no literal
  obtain ⟨hn, hb, hx⟩ := st.ne_literalTag "=" (by cases st <;> decide)
  have htag : Value.field "tag" (.record [("tag", .text "="), ("position", position)]) =
      .ok (.text "=") := rfl
  have hsound : Token.Sound st (.record [("tag", .text "="), ("position", position)]) :=
    .of_tag htag (by simpa using hn) (by simpa using hb) (by simpa using hx)
  exact ⟨hsound, ⟨"=", htag⟩, ⟨position, rfl⟩⟩

/-- The rules that the first token chooses start from the same tokens. -/
theorem readStatement_reports : Leaves st (readStatement st rule ts) := by
  refine (headTag_reports hts).bind fun tag htag => ?_
  have hdrop : ∀ {s : String}, tag.isText s = true → Guarded st (ts.drop 1) :=
    fun hs => hts.drop (headTag_of_isText htag hs)
  refine .ite (fun _ => h .ifStatement ts hts) fun _ => .ite (fun _ => h .whileStatement ts hts)
    fun _ => .ite (fun hs => ?_) fun _ => .ite (fun _ => h .returnStatement ts hts) fun _ =>
    .ite (fun _ => h .printStatement ts hts) fun _ => .ite (fun _ => h .blockStatement ts hts)
    fun _ => .ite (fun hs => ?_) fun _ => h .expression ts hts
  -- a second token is looked at, which the ending does not stand in the way of
  · rw [Bool.and_eq_true] at hs
    refine (nextIs_reports (hdrop hs.1) _).bind fun _ _ => ?_
    exact .ite (fun _ => h .functionStatement ts hts) fun _ => h .expression ts hts
  · rw [Bool.and_eq_true] at hs
    refine (nextIs_reports (hdrop hs.1) _).bind fun _ _ => ?_
    exact .ite (fun _ => h .assignment ts hts) fun _ => h .expression ts hts

/-- **On guarded tokens a rule reports the faults of the text and leaves guarded tokens**, if the
rules inside it do. -/
theorem step_reports (n : Nat) (r : Rule) : Leaves st (step st rule n r ts) := by
  cases r with
  | statement => exact readStatement_reports h hts
  | ifStatement => exact readIf_reports h hts
  | whileStatement => exact readWhile_reports h hts
  | blockStatement => exact readBlock_reports h hts n
  | returnStatement => exact readReturn_reports h hts
  | printStatement => exact readPrint_reports h hts
  | functionStatement => exact readFunctionStatement_reports h hts
  | assignment => exact readAssignment_reports h hts
  -- the levels of operators and the rule of expressions pass the tokens on as they are
  | expression => exact h _ ts hts
  | disjunction | conjunction | comparison | sum | product =>
    exact readLeftward_reports h hts n _ _
  | negation => exact readNegation_reports h hts
  | factor => exact readFactor_reports h hts
  | callable => exact (h .simple ts hts).bind fun _ hp => calls_reports h n _ hp
  | simple => exact readSimple_reports h hts _
  | functionLiteral => exact readFunction_reports h hts
  | nameList => exact readNameList_reports hts n
  | expressionList => exact readExpressionList_reports h hts n

end Reports

/-- Whatever the budget, a rule stays within its tokens. -/
theorem apply_reports (st : Stage) : ∀ (n : Nat) (r : Rule) (ts : List Token), Guarded st ts →
    Leaves st (apply st n r ts)
  | 0, _, _, _ => .error .exhausted
  | n + 1, r, _, hts => step_reports (apply_reports st n) hts n r

/-- What a rule gives on guarded tokens. -/
theorem read_safe {st : Stage} {ts : List Token} (hts : Guarded st ts) (r : Rule) :
    (∃ t rest, r.read st ts = .ok (t, rest) ∧ Past 1 ts rest ∧ Guarded st rest) ∨
    ∃ e, r.read st ts = .error e ∧ (e.kind = .general ∨ e.kind = .assertion) := by
  -- two views of one reading: what it can fail with, and that its budget is enough
  have hreports : Leaves st (r.read st ts) := apply_reports st _ r ts hts
  have hconcludes := read_concludes st r ts
  cases hread : r.read st ts with
  | ok p =>
    rw [hread] at hreports hconcludes
    exact .inl ⟨p.1, p.2, rfl, hconcludes.mono r.least_pos, hreports⟩
  | error e =>
    rw [hread] at hreports hconcludes
    refine .inr ⟨e, rfl, ?_⟩
    rcases hreports with hkind | hkind | hkind
    · exact .inl hkind
    · exact .inr hkind
    -- so it is not the budget that ended it
    · cases e with
      | exhausted => exact absurd rfl hconcludes
      | _ => cases hkind

/-! ## The rules on the way -/

/-- To read the tokens of `c`, its rule uses the rule of `d` on the tokens of `d`: if that fails,
so does this, and for the same reason. -/
def Asks (st : Stage) (c d : Rule × List Token) : Prop :=
  ∀ (rule : Rule → List Token → Reading) (e : Fault),
    (∀ r ts, (r, ts) ≠ d → rule r ts = r.read st ts) → rule d.1 d.2 = .error e →
    step st rule (budget c.2.length) c.1 c.2 = .error e

variable {st : Stage} {c d : Rule × List Token}

/-- The rules, with a fault in the place of one use. -/
theorem exists_interrupted (st : Stage) (d : Rule × List Token) (e : Fault) :
    ∃ rule : Rule → List Token → Reading,
      (∀ r ts, (r, ts) ≠ d → rule r ts = r.read st ts) ∧ rule d.1 d.2 = .error e := by
  classical
  refine ⟨fun r ts => if (r, ts) = d then .error e else r.read st ts, ?_, ?_⟩
  · intro r ts hne
    exact if_neg hne
  · exact if_pos rfl

/-- **A rule on guarded tokens uses rules on guarded tokens only.** Were they not guarded, a fault
there would not be one that rules report. -/
theorem Guarded.asks (hc : Guarded st c.2) (h : Asks st c d) : Guarded st d.2 := by
  by_contra hd
  obtain ⟨rule, hrule, hfault⟩ := exists_interrupted st d .outOfTokens
  -- the fault stands where the tokens are not guarded, and so no rule on guarded ones gives it
  have hleaves : ∀ r ts, Guarded st ts → Leaves st (rule r ts) := by
    intro r ts hts
    rw [hrule r ts (by rintro rfl; exact hd hts)]
    exact apply_reports st _ r ts hts
  have hstep := step_reports hleaves hc (budget c.2.length) c.1
  rw [h rule _ hrule hfault] at hstep
  rcases hstep with hkind | hkind | hkind <;> cases hkind

/-- A rule uses rules on fewer tokens, or on as many and at a lower rank. Here a function statement
counts as a token more: it hands on that many. -/
theorem Asks.decreases (h : Asks st c d) :
    16 * d.2.length + rank d.1 < 16 * c.2.length + rank c.1 := by
  by_contra hnot
  -- without the uses that do not decrease the rule gives the same
  let bounded : Rule → List Token → Reading := fun r ts =>
    if 16 * ts.length + rank r < 16 * c.2.length + rank c.1 then r.read st ts
    else .error .exhausted
  have hbounded : ∀ r ts, 16 * ts.length + rank r < 16 * c.2.length + rank c.1 →
      Concludes (fun p => Past r.least ts p.2) (bounded r ts) := by
    intro r ts hlt
    rw [show bounded r ts = r.read st ts from if_pos hlt]
    exact read_concludes st r ts
  have hrank : rank c.1 ≤ 32 := by cases c.1 <;> decide
  have hconcludes : Concludes (fun p => Past c.1.least c.2 p.2)
      (step st bounded (budget c.2.length) c.1 c.2) :=
    step_concludes hbounded c.1 (Nat.le_refl _) (by unfold budget; omega)
  have hfails : ∀ e, step st bounded (budget c.2.length) c.1 c.2 = .error e := by
    intro e
    obtain ⟨rule, hrule, hfault⟩ := exists_interrupted st d e
    have hextends : ∀ r ts, Extends (bounded r ts) (rule r ts) := by
      intro r ts
      by_cases hlt : 16 * ts.length + rank r < 16 * c.2.length + rank c.1
      · rw [show bounded r ts = r.read st ts from if_pos hlt,
          hrule r ts (by rintro rfl; exact hnot hlt)]
        exact .refl _
      · rw [show bounded r ts = .error .exhausted from if_neg hlt]
        exact .of_exhausted _
    rw [← step_extends hextends (Nat.le_refl _) c.1 c.2 hconcludes.ne_exhausted]
    exact h rule e hrule hfault
  cases (hfails .violation).symm.trans (hfails .unclosed)

/-- No chain of rules that use one another goes on for ever. -/
theorem asks_wellFounded (st : Stage) : WellFounded fun d c => Asks st c d :=
  Subrelation.wf (fun h => Asks.decreases h)
    (measure fun c : Rule × List Token => 16 * c.2.length + rank c.1).wf

/-- Wherever a rule is used on the way, its tokens are guarded. -/
theorem Guarded.reached (hc : Guarded st c.2) (h : Relation.ReflTransGen (Asks st) c d) :
    Guarded st d.2 := by
  induction h with
  | refl => exact hc
  | tail _ hasks ih => exact ih.asks hasks

/-- The rule that a program is read by. -/
def start (st : Stage) : Rule := if st.has .assignments then .statement else .expression

end Rule

/-- Parsing is reading by the rule of the stage; what is left over does not matter. -/
theorem parse_eq_ok_iff_read {st : Stage} {ts : List Token} {t : Tree} :
    parse st ts = .ok t ↔
      ∃ rest, (Rule.start st).read st (ts ++ [Token.ending]) = .ok (t, rest) := by
  have hparse : parse st ts =
      ((Rule.start st).read st (ts ++ [Token.ending]) >>= fun p => pure p.1) := rfl
  rw [hparse]
  cases (Rule.start st).read st (ts ++ [Token.ending]) with
  | error e =>
    constructor
    · intro h
      cases h
    · rintro ⟨rest, h⟩
      cases h
  | ok p =>
    obtain ⟨u, rest⟩ := p
    constructor
    · rintro ⟨⟩
      exact ⟨rest, rfl⟩
    · rintro ⟨rest', h⟩
      cases h
      rfl

/-- What the parser reports on guarded tokens. -/
theorem parse_error_kind {st : Stage} {ts : List Token} {e : Fault}
    (hts : Rule.Guarded st (ts ++ [Token.ending])) (h : parse st ts = .error e) :
    e.kind = .general ∨ e.kind = .assertion := by
  have hparse : parse st ts =
      ((Rule.start st).read st (ts ++ [Token.ending]) >>= fun p => pure p.1) := rfl
  rw [hparse] at h
  obtain ⟨t, rest, hread, -⟩ | ⟨e', hread, hkind⟩ := Rule.read_safe hts (Rule.start st)
  · rw [hread] at h
    cases h
  · rw [hread] at h
    cases h
    exact hkind

/-- **The parser stays within its tokens.** On the tokens of a text it gives a tree or reports a
fault of the text. No chain of rules that use one another goes on for ever. Whatever rule is used
on the way: if it gives something, then what it leaves are the last of its tokens, fewer than it
was given, with the ending still behind them. -/
theorem parse_safe {st : Stage} {code : String} {ts : List Token} (h : tokenize st code = .ok ts) :
    ((∃ t, parse st ts = .ok t) ∨
      ∃ e, parse st ts = .error e ∧ (e.kind = .general ∨ e.kind = .assertion)) ∧
    (WellFounded fun d c => Rule.Asks st c d) ∧
    ∀ r us, Relation.ReflTransGen (Rule.Asks st) (Rule.start st, ts ++ [Token.ending]) (r, us) →
      ∀ node rest, r.read st us = .ok (node, rest) →
        rest <:+ us ∧ rest.length < us.length ∧ rest.getLast? = some Token.ending := by
  have hguarded : Rule.Guarded st (ts ++ [Token.ending]) :=
    .append_ending (tokenize_full st code ts h)
  refine ⟨?_, Rule.asks_wellFounded st, fun r us hreached node rest hread => ?_⟩
  · cases hparse : parse st ts with
    | ok t => exact .inl ⟨t, rfl⟩
    | error e => exact .inr ⟨e, rfl, parse_error_kind hguarded hparse⟩
  · have hus : Rule.Guarded st us := hguarded.reached hreached
    obtain ⟨t, rest', hread', hpast, hrest⟩ | ⟨e, hread', -⟩ := Rule.read_safe hus r
    · cases hread.symm.trans hread'
      exact ⟨hpast.suffix, hpast.length, hrest.getLast?⟩
    · cases hread.symm.trans hread'

/-- The tokens of a function statement. -/
def definitionTokens : List Token :=
  [Token.make "function" none 0, Token.make "<identifier>" (some (.text "f")) 9,
   Token.make "(" none 10, Token.make ")" none 11, Token.make "\x7b" none 12,
   Token.make "return" none 13, Token.make "\x7d" none 19, Token.make ";" none 20]

/-- What is handed on to the rule of assignments: the name, a sign and the keyword. -/
def rewrittenTokens : List Token :=
  [Token.make "<identifier>" (some (.text "f")) 9, Token.make "=" none 0,
   Token.make "function" none 0] ++ definitionTokens.drop 2 ++ [Token.ending]

/-- The rule of assignments gets tokens that are no part of the text's, and leaves the last of
these. -/
theorem parse_safe_of_definition :
    tokenize .returns "function f()\x7breturn\x7d;" = .ok definitionTokens ∧
    Relation.ReflTransGen (Rule.Asks .returns)
      (.statement, definitionTokens ++ [Token.ending]) (.assignment, rewrittenTokens) ∧
    ∃ node rest, Rule.assignment.read .returns rewrittenTokens = .ok (node, rest) ∧
      rest <:+ rewrittenTokens ∧ rest.length < rewrittenTokens.length ∧
      rest.getLast? = some Token.ending := by
  have htokens : tokenize .returns "function f()\x7breturn\x7d;" = .ok definitionTokens := rfl
  have hstatement : Rule.Asks .returns (.statement, definitionTokens ++ [Token.ending])
      (.functionStatement, definitionTokens ++ [Token.ending]) := fun _ _ _ hfault => hfault
  have hassignment : Rule.Asks .returns (.functionStatement, definitionTokens ++ [Token.ending])
      (.assignment, rewrittenTokens) := fun _ _ _ hfault => hfault
  have hreached := (Relation.ReflTransGen.single hstatement).tail hassignment
  have hread : Rule.assignment.read .returns rewrittenTokens =
      .ok (_, [Token.make ";" none 20, Token.ending]) := rfl
  exact ⟨htokens, hreached, _, _, hread, (parse_safe htokens).2.2 _ _ hreached _ _ hread⟩

end Stepwise
