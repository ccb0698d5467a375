import Stepwise.Proofs.ParserReaders

/-!
# The parser reads every phrase

The converse of `Stepwise.Proofs.ParserSound`: the parser reads back each phrase that the
grammar derives with closed statements before every `else`, if what stands behind the
phrase cannot continue it (`Grammar.Derives.reads`). So a phrase has only one tree.

- `Rule.signsBehind`: the signs that would continue what a rule reads;
- `Rule.EndsStatement t rest`: the statement `t` may end in front of `rest`;
- `Rule.Arrives r ts t rest`: how far a rule comes with a phrase of its own. A rule with
  repetition is then in its loop, with `t` read so far, and may go on: its phrases are
  built up from the left, and the loop follows them;
- `Grammar.Reads`: what is shown of each phrase, with one lemma for each way to build one.
-/

namespace Stepwise

open Grammar (Derives Phrase)
open Token (headTag Is Bears)

/-! ## The first words of an expression -/

/-- The first word of an expression ends no list and no block, and announces no statement. -/
theorem Word.tag_of_starts {w : Word} (h : w.starts = true) :
    w.tag ∉ [")", ";", "\x7d", "if", "while", "return", "print", "\x7b"] := by
  cases w with
  | sign tag =>
    revert tag
    simp [Word.starts, Word.tag]
  | number | boolean | name => simp [Word.tag]
  | define | defined => cases h

namespace Grammar

/-- The expressions in which no `!` stands in front. -/
def Phrase.isOperand : Phrase → Bool
  | .rule r => r ∈ [.comparison, .sum, .product, .factor, .callable, .simple, Rule.functionLiteral]
  | _ => false

variable {closed : Tree → Prop} {ph : Phrase} {ws : List Word} {t : Tree}

theorem level_isOperand {r operand : Rule} {signs : List String}
    (h : r.level? = some (operand, signs)) (hr : (Phrase.rule r).isOperand = true) :
    (Phrase.rule operand).isOperand = true := by
  cases r <;> cases h <;> first | rfl | cases hr

/-- An operand does not start with `!`. -/
theorem Derives.starts_operand (h : Derives closed ph ws t) (hph : ph.isOperand = true) :
    ∃ w rest, ws = w :: rest ∧ w.tag ∉ ["!"] := by
  induction h with
  | number v | boolean v | name v | parenthesized | negated | literal =>
    exact ⟨_, _, rfl, by simp [Word.tag]⟩
  | operand hr _ ih => exact ih (level_isOperand hr hph)
  | function _ ih | uncalled _ ih | factor _ ih => exact ih rfl
  | called _ _ ih _ =>
    obtain ⟨w, rest, rfl, hw⟩ := ih rfl
    exact ⟨w, _, rfl, hw⟩
  | binary hr _ _ _ ih _ =>
    obtain ⟨w, rest, rfl, hw⟩ := ih hph
    exact ⟨w, _, rfl, hw⟩
  | _ => cases hph

/-- Argument lists start with a parenthesis. -/
theorem Derives.expressionList_head (h : Derives closed (.rule .expressionList) ws t) :
    ∃ rest, ws = .sign "(" :: rest := by
  cases h with
  | operand hr => cases hr
  | binary hr => cases hr
  | noExpressions => exact ⟨_, rfl⟩
  | someExpressions => exact ⟨_, rfl⟩

/-- Parameter lists start with a parenthesis. -/
theorem Derives.nameList_head (h : Derives closed (.rule .nameList) ws t) :
    ∃ rest, ws = .sign "(" :: rest := by
  cases h with
  | operand hr => cases hr
  | binary hr => cases hr
  | noNames => exact ⟨_, rfl⟩
  | someNames => exact ⟨_, rfl⟩

/-- Behind a name or the keyword of a function at the head of an expression. -/
def Second (ws : List Word) : Prop :=
  (∀ v rest, ws = .name v :: rest → rest = [] ∨ ∃ tag ∈ "(" :: Rule.operators, ∃ rest',
    rest = .sign tag :: rest') ∧
  (∀ rest, ws = .sign "function" :: rest → ∃ rest', rest = .sign "(" :: rest')

/-- The second word is still the same if an operator or an argument list follows. -/
theorem Second.append {p : List Word} (h : Second p) (hp : p ≠ []) {tag : String}
    (htag : tag ∈ "(" :: Rule.operators) (q : List Word) : Second (p ++ .sign tag :: q) := by
  obtain ⟨w, p, rfl⟩ := List.exists_cons_of_ne_nil hp
  constructor
  · rintro v rest ⟨⟩
    rcases h.1 v p rfl with rfl | ⟨tag', htag', rest', rfl⟩
    · exact .inr ⟨tag, htag, q, rfl⟩
    · exact .inr ⟨tag', htag', _, rfl⟩
  · rintro rest ⟨⟩
    obtain ⟨rest', rfl⟩ := h.2 p rfl
    exact ⟨_, rfl⟩

/-- What comes second in an expression: behind a name the end, an operator or a parenthesis, behind
the keyword a parenthesis. -/
theorem Derives.second (h : Derives closed ph ws t) (hph : ph.isExpression = true) :
    Second ws := by
  have ne_nil : ∀ {r : Rule} {p : List Word} {e : Tree}, (Phrase.rule r).isExpression = true →
      Derives closed (.rule r) p e → p ≠ [] := by
    rintro r p e hr h rfl
    obtain ⟨w, rest, hnil, -⟩ := h.starts hr
    cases hnil
  -- the words in front stay in front; only a single name lets the next phrase in
  induction h with
  | number v | boolean v => exact ⟨nofun, nofun⟩
  | name v => exact ⟨by rintro v rest ⟨⟩; exact .inl rfl, nofun⟩
  | parenthesized | negated | not => exact ⟨nofun, by simp⟩
  | literal hxs _ =>
    obtain ⟨rest, rfl⟩ := hxs.nameList_head
    exact ⟨nofun, by rintro _ ⟨⟩; exact ⟨_, rfl⟩⟩
  | operand hr _ ih => exact ih (level_isExpression hr).2.1
  | function _ ih | uncalled _ ih | factor _ ih | plain _ ih | expression _ ih => exact ih rfl
  | called hf hes ih _ =>
    obtain ⟨rest, rfl⟩ := hes.expressionList_head
    exact (ih rfl).append (ne_nil rfl hf) (by simp) rest
  | binary hr htag hleft _ ih _ =>
    have hexpr := level_isExpression hr
    exact (ih hexpr.1).append (ne_nil hexpr.1 hleft) (List.mem_cons_of_mem _ (hexpr.2.2 htag)) _
  | _ => cases hph

/-- Every form of statement starts with a word that neither ends nor separates statements. -/
theorem Derives.form_head {r : Rule} (hr : r ∈ Rule.forms) (h : Derives closed (.rule r) ws t) :
    ∃ w rest, ws = w :: rest ∧ w.tag ∉ [";", "\x7d"] := by
  cases h with
  | emptyBlock | block | ifThen | ifElse | loop | giveBack | giveBackValue | print
  | functionStatement | assignment => exact ⟨_, _, rfl, by simp [Word.tag]⟩
  | expression hdisjunction =>
    obtain ⟨w, rest, rfl, hw⟩ := hdisjunction.starts rfl
    have hstarts := Word.tag_of_starts hw
    simp only [List.mem_cons, not_or] at hstarts
    exact ⟨w, rest, rfl, by simp [hstarts]⟩
  | operand hlevel | binary hlevel =>
    exact absurd (List.mem_cons_of_mem _ hr) (Rule.not_mem_forms_of_level hlevel)
  | _ => exact absurd hr (by decide)

/-- So does every statement, -/
theorem Derives.statement_head (h : Derives closed (.rule .statement) ws t) :
    ∃ w rest, ws = w :: rest ∧ w.tag ∉ [";", "\x7d"] := by
  cases h with
  | operand hr | binary hr => cases hr
  | statement hr hform => exact hform.form_head hr

/-- and every sequence of statements. -/
theorem Derives.statements_head (h : Derives closed .statements ws t) :
    ∃ w rest, ws = w :: rest ∧ w.tag ∉ [";", "\x7d"] := by
  cases h with
  | lastStatement hs => exact hs.statement_head
  | moreStatements n hs _ =>
    obtain ⟨w, rest, rfl, hw⟩ := hs.statement_head
    exact ⟨w, _, rfl, hw⟩

theorem Derives.names_head (h : Derives closed .names ws t) : ∃ v rest, ws = .name v :: rest := by
  cases h with
  | lastName v | moreNames v => exact ⟨v, _, rfl⟩

/-- A list of expressions starts as its first expression does. -/
theorem Derives.expressions_head (h : Derives closed .expressions ws t) :
    ∃ w rest, ws = w :: rest ∧ w.starts = true := by
  cases h with
  | lastExpression he => exact he.starts rfl
  | moreExpressions he _ =>
    obtain ⟨w, rest, rfl, hw⟩ := he.starts rfl
    exact ⟨w, _, rfl, hw⟩

/-- Blocks start with a brace. -/
theorem Derives.block_head (h : Derives closed (.rule .blockStatement) ws t) :
    ∃ rest, ws = .sign "\x7b" :: rest := by
  cases h with
  | operand hr | binary hr => cases hr
  | emptyBlock | block => exact ⟨_, rfl⟩

end Grammar

/-! ## What may follow a phrase -/

namespace Rule

/-- The signs that would continue what the rule reads. -/
def signsBehind : Rule → List String
  | .callable | .factor => ["("]
  | .product => ["(", "*", "/"]
  | .sum => ["(", "*", "/", "+", "-"]
  | .comparison | .negation => ["(", "*", "/", "+", "-", "<", ">", "<=", ">=", "==", "!="]
  | .conjunction => ["(", "*", "/", "+", "-", "<", ">", "<=", ">=", "==", "!=", "&&"]
  | .disjunction | .expression => "(" :: operators
  | _ => []

/-- The signs that would continue the last operand in what the rule reads. -/
def signsInside (r : Rule) : List String :=
  match r, r.level? with
  | _, some (operand, _) => operand.signsBehind
  | .callable, none => []
  | r, none => r.signsBehind

/-- What the rule reads goes on to the end of a statement, or may do so. -/
def isStatement (r : Rule) : Bool :=
  r ∈ [.statement, .ifStatement, .whileStatement, .returnStatement, .assignment,
    .functionStatement]

/-- The statement may end here: ahead is a semicolon, a closing brace, the end, or an `else`
that does not continue the statement. -/
def EndsStatement (t : Tree) (rest : List Token) : Prop :=
  ∃ v ∈ [.text ";", .text "\x7d", .null, .text "else"], headTag rest = .ok v ∧
    (v = .text "else" → Tree.Closed t)

/-- What stands ahead does not continue the last part of what the rule has read. -/
def Follows (r : Rule) (t : Tree) (rest : List Token) : Prop :=
  if r.isStatement then EndsStatement t rest else Stops r.signsInside rest

/-- With `rest` ahead the rule has read `t`. A rule with repetition is in its loop. -/
def Arrives (r : Rule) (ts : List Token) (t : Tree) (rest : List Token) : Prop :=
  match r, r.level? with
  | r, some (operand, signs) => ∃ k, rest.length < k ∧
      r.read .returns ts = leftward .returns (Rule.read .returns) operand signs k t rest
  | .callable, none => ∃ k, rest.length < k ∧
      callable.read .returns ts = calls .returns (Rule.read .returns) k t rest
  | r, none => r.read .returns ts = .ok (t, rest)

section Levels

variable {r operand : Rule} {signs : List String} (hr : r.level? = some (operand, signs))
include hr

/-- At a level of operators the next token must not continue the operand. -/
theorem follows_of_level (t : Tree) (rest : List Token) :
    Follows r t rest ↔ Stops operand.signsBehind rest := by
  cases r <;> cases hr <;> rfl

/-- At a level of operators a rule arrives in its loop, with rounds to spare. -/
theorem arrives_of_level (ts : List Token) (t : Tree) (rest : List Token) :
    Arrives r ts t rest ↔ ∃ k, rest.length < k ∧
      r.read .returns ts = leftward .returns (Rule.read .returns) operand signs k t rest := by
  cases r <;> cases hr <;> rfl

/-- A rule goes on where its operands do and with its own operators, and no operator of its own
continues an operand. -/
theorem signsBehind_of_level : isStatement r = false ∧ isStatement operand = false ∧
    operand.signsBehind ⊆ r.signsBehind ∧ signs ⊆ r.signsBehind ∧
    ∀ tag ∈ signs, tag ∉ operand.signsBehind := by
  cases r <;> cases hr <;> decide

end Levels

theorem signsBehind_subset (r : Rule) : r.signsBehind ⊆ "(" :: operators := by
  cases r <;> decide

theorem signsInside_subset (r : Rule) : r.signsInside ⊆ r.signsBehind := by
  cases r <;> decide

variable {t : Tree} {ts rest : List Token}

/-- At the end of a statement no expression goes on. -/
theorem EndsStatement.stops (h : EndsStatement t rest) : Stops ("=" :: "(" :: operators) rest := by
  obtain ⟨v, hmem, hv, -⟩ := h
  refine ⟨v, hv, ?_⟩
  rintro tag htag rfl
  revert tag
  simp [operators]

/-- A statement that is closed may have an `else` behind it. -/
theorem EndsStatement.of_closed {v : Value} (hv : headTag rest = .ok v)
    (hmem : v ∈ [.text ";", .text "\x7d", .null, .text "else"]) (ht : Tree.Closed t) :
    EndsStatement t rest :=
  ⟨v, hmem, hv, fun _ => ht⟩

/-- The last part of a statement ends where the statement does. -/
theorem EndsStatement.part {s : Tree} (h : EndsStatement t rest)
    (hopen : Tree.Open s → Tree.Open t) : EndsStatement s rest := by
  obtain ⟨v, hmem, hv, hclosed⟩ := h
  exact ⟨v, hmem, hv, fun helse hs => hclosed helse (hopen hs)⟩

/-- No `else` follows an open statement. -/
theorem EndsStatement.of_open (h : EndsStatement t rest) (ht : Tree.Open t) :
    ∃ v ∈ [.text "\x7d", .text ";", .null], headTag rest = .ok v := by
  obtain ⟨v, hmem, hv, hclosed⟩ := h
  have helse : v ≠ .text "else" := fun heq => hclosed heq ht
  refine ⟨v, ?_, hv⟩
  simp only [List.mem_cons, List.not_mem_nil, or_false] at hmem ⊢
  tauto

/-- Behind an open statement no `else` can follow. -/
theorem EndsStatement.stops_else (h : EndsStatement t rest) (ht : Tree.Open t) :
    Stops ["else"] rest := by
  obtain ⟨v, hmem, hv⟩ := h.of_open ht
  refine ⟨v, hv, ?_⟩
  rintro tag htag rfl
  revert tag
  simp

/-- A rule that is in its loop comes out of it if nothing ahead continues it. -/
theorem Arrives.read {r : Rule} (h : Arrives r ts t rest) (hrest : Stops r.signsBehind rest) :
    r.read .returns ts = .ok (t, rest) := by
  cases hr : r.level? with
  | some level =>
    obtain ⟨operand, signs⟩ := level
    obtain ⟨k, hk, hread⟩ := (arrives_of_level hr ..).1 h
    have hsigns := (signsBehind_of_level hr).2.2.2.1
    -- there is a round left, which ends the loop
    obtain ⟨k, rfl⟩ := Nat.exists_eq_add_of_lt hk
    rw [hread]
    exact leftward_end _ (hrest.mono hsigns)
  | none =>
    cases r with
    -- argument lists are read in a loop, too
    | callable =>
      obtain ⟨k, hk, hread⟩ := h
      obtain ⟨k, rfl⟩ := Nat.exists_eq_add_of_lt hk
      rw [hread]
      exact calls_end _ hrest
    | disjunction | conjunction | comparison | sum | product => cases hr
    | _ => exact h

end Rule

/-! ## Reading phrases back -/

namespace Grammar

open Rule

/-- What the parser does with a phrase. For what stands inside a list or a block it is said how
the first member is read, and that the loop for the further ones reads them up to the end. -/
def Reads : Phrase → List Word → Tree → Prop
  | .rule r, ws, t => ∀ ts rest, Spans ts ws rest → r.Follows t rest → r.Arrives ts t rest
  | .expressions, ws, t => ∀ ts tok rest, Spans ts ws (tok :: rest) → Is ")" tok →
      ∃ e mid es, expression.read .returns ts = .ok (e, mid) ∧ t = Tree.chain (e :: es) ∧
        ∀ k, ts.length < k →
          moreExpressions (Rule.read .returns) k mid = .ok (es, tok :: rest)
  | .names, ws, t => ∀ ts tok rest, Spans ts ws (tok :: rest) → Is ")" tok →
      ∃ x mid xs, parameter .returns ts = .ok (x, mid) ∧ t = Tree.chain (x :: xs) ∧
        ∀ k, ts.length < k → moreParameters .returns k mid = .ok (xs, tok :: rest)
  | .statements, ws, t => ∀ ts mid tok rest j, Spans ts ws mid →
      Spans mid (List.replicate j (.sign ";")) (tok :: rest) → Is "\x7d" tok →
      ∃ s mid' more, statement.read .returns ts = .ok (s, mid') ∧
        (∃ tag ∈ [";", "\x7d"], headTag mid' = .ok (.text tag)) ∧
        t = Tree.block (s :: more) ∧
        ∀ k, ts.length < k →
          moreStatements (Rule.read .returns) k mid' = .ok (more, tok :: rest)

variable {p q : List Word}

/-- An expression or list is read back if nothing ahead continues it. -/
theorem Reads.read {r : Rule} {ws : List Word} {t : Tree} {ts rest : List Token}
    (h : Reads (.rule r) ws t) (hr : r.isStatement = false) (hspans : Spans ts ws rest)
    (hrest : Stops r.signsBehind rest) : r.read .returns ts = .ok (t, rest) := by
  have hfollows : r.Follows t rest := by
    simpa [Follows, hr] using hrest.mono (signsInside_subset r)
  exact (h ts rest hspans hfollows).read hrest

/-! ### Expressions -/

/-- Inside parentheses nothing continues the expression. -/
theorem Reads.parenthesized {e : Tree} (h : Reads (.rule .expression) p e) :
    Reads (.rule .simple) (Word.sign "(" :: p ++ [Word.sign ")"]) e := by
  rintro _ rest ⟨tok, ts, rfl, htok, hspans⟩ -
  obtain ⟨mid, hp, hend⟩ := Spans.append_iff.1 hspans
  obtain ⟨tok', rfl, htok'⟩ := Spans.one_iff.1 hend
  exact read_parenthesized htok htok' (h.read rfl hp (.of_is htok' (by decide)))

/-- An operand is a chain without operators. -/
theorem Reads.operand {r operand : Rule} {signs : List String} {e : Tree}
    (hr : r.level? = some (operand, signs)) (h : Reads (.rule operand) p e) :
    Reads (.rule r) p e := by
  intro ts rest hspans hrest
  have hoperand := h.read (signsBehind_of_level hr).2.1 hspans ((follows_of_level hr ..).1 hrest)
  have hlength := hspans.length_eq
  exact (arrives_of_level hr ..).2
    ⟨budget ts.length, by unfold budget; omega, read_level hr hoperand⟩

/-- The loop has read the left operand, and takes one more turn. -/
theorem Reads.binary {r operand : Rule} {signs : List String} {tag : String} {left right : Tree}
    (hr : r.level? = some (operand, signs)) (htag : tag ∈ signs)
    (hleft : Reads (.rule r) p left) (hright : Reads (.rule operand) q right) :
    Reads (.rule r) (p ++ .sign tag :: q) (Tree.binary .returns tag left right) := by
  intro ts rest hspans hrest
  obtain ⟨mid, hp, hmid⟩ := Spans.append_iff.1 hspans
  obtain ⟨tok, ts', rfl, htok, hq⟩ := hmid
  obtain ⟨-, hoperand, -, -, hsigns⟩ := signsBehind_of_level hr
  have hfollows : r.Follows left (tok :: ts') :=
    (follows_of_level hr ..).2 (.of_is htok (hsigns tag htag))
  -- the left operand arrives in the loop, with a round for this operator
  obtain ⟨k, hk, hread⟩ := (arrives_of_level hr ..).1 (hleft _ _ hp hfollows)
  have hoperator := hright.read hoperand hq ((follows_of_level hr ..).1 hrest)
  have hlength := hq.length_eq
  cases k with
  | zero => cases hk
  | succ k =>
    have hk' : rest.length < k := by
      rw [List.length_cons] at hk
      omega
    rw [leftward_operator k htok htag hoperator] at hread
    exact (arrives_of_level hr ..).2 ⟨k, hk', hread⟩

/-- A simple expression is a callee without calls. -/
theorem Reads.uncalled {e : Tree} (h : Reads (.rule .simple) p e) :
    Reads (.rule .callable) p e := by
  intro ts rest hspans hrest
  have hlength := hspans.length_eq
  exact ⟨budget ts.length, by unfold budget; omega, read_callable (h.read rfl hspans hrest)⟩

/-- The loop has read the callee, and takes one more turn for the argument list. -/
theorem Reads.called {f es : Tree} (hf : Reads (.rule .callable) p f)
    (hes : Reads (.rule .expressionList) (.sign "(" :: q) es) :
    Reads (.rule .callable) (p ++ .sign "(" :: q) (Tree.call .returns f es) := by
  intro ts rest hspans hrest
  obtain ⟨mid, hp, hmid⟩ := Spans.append_iff.1 hspans
  have harguments := hes.read rfl hmid hrest
  have hlength := hmid.length_eq
  obtain ⟨tok, ts', rfl, htok, -⟩ := hmid
  have hfollows : callable.Follows f (tok :: ts') := Stops.of_is htok List.not_mem_nil
  -- the callee arrives in the loop, with a round for this argument list
  obtain ⟨k, hk, hread⟩ := hf _ _ hp hfollows
  cases k with
  | zero => cases hk
  | succ k =>
    have hk' : rest.length < k := by
      simp only [List.length_cons] at hk hlength
      omega
    rw [calls_called k htok harguments] at hread
    exact ⟨k, hk', hread⟩

/-- The block starts with a brace, so nothing continues the parameters. -/
theorem Reads.literal {xs body : Tree} (hxs : Reads (.rule .nameList) p xs)
    (hbody : Reads (.rule .blockStatement) (.sign "\x7b" :: q) body) :
    Reads (.rule .functionLiteral) (.sign "function" :: p ++ .sign "\x7b" :: q)
      (Tree.function xs body) := by
  rintro _ rest ⟨tok, ts, rfl, htok, hspans⟩ hrest
  obtain ⟨mid, hp, hq⟩ := Spans.append_iff.1 hspans
  have hblock := hbody.read rfl hq hrest
  obtain ⟨tok', ts', rfl, htok', -⟩ := hq
  exact read_literal htok (hxs.read rfl hp (.of_is htok' (by decide))) hblock

/-! ### Lists -/

theorem Reads.lastName (v : Value) :
    Reads .names [.name v] (Tree.leaf .returns "<identifier>" v) := by
  rintro _ tok rest ⟨name, ts, rfl, hname, rfl⟩ htok
  refine ⟨_, _, [], parameter_of_bears hname, rfl, fun k hk => ?_⟩
  cases k with
  | zero => cases hk
  | succ k => exact moreParameters_end k (.of_is htok (by decide))

/-- One name, a comma, and the other names. -/
theorem Reads.moreNames (v : Value) {xs : Tree} (h : Reads .names p xs) :
    Reads .names (.name v :: .sign "," :: p)
      (Tree.follow xs (Tree.leaf .returns "<identifier>" v)) := by
  rintro _ tok rest ⟨name, _, rfl, hname, comma, ts, rfl, hcomma, hspans⟩ htok
  obtain ⟨x, mid, more, hx, rfl, hmore⟩ := h ts tok rest hspans htok
  refine ⟨_, _, x :: more, parameter_of_bears hname, rfl, fun k hk => ?_⟩
  cases k with
  | zero => cases hk
  | succ k =>
    simp only [List.length_cons] at hk
    exact moreParameters_name k hcomma hx (hmore k (by omega))

/-- A list that starts with a name is not empty. -/
theorem Reads.someNames {v : Value} {xs : Tree} (h : Reads .names (.name v :: p) xs) :
    Reads (.rule .nameList) (Word.sign "(" :: (.name v :: p) ++ [Word.sign ")"]) xs := by
  rintro _ rest ⟨tok, ts, rfl, htok, hspans⟩ -
  obtain ⟨mid, hp, hend⟩ := Spans.append_iff.1 hspans
  obtain ⟨tok', rfl, htok'⟩ := Spans.one_iff.1 hend
  obtain ⟨x, mid, more, hx, rfl, hmore⟩ := h ts tok' rest hp htok'
  have hstart : Stops [")"] ts := by
    obtain ⟨name, ts', rfl, hname, -⟩ := hp
    exact .of_is hname.is (by simp [Word.tag])
  exact read_names htok hstart hx (hmore _ (by unfold budget; omega)) htok'

theorem Reads.lastExpression {e : Tree} (h : Reads (.rule .expression) p e) :
    Reads .expressions p e := by
  intro ts tok rest hspans htok
  have hread := h.read rfl hspans (.of_is htok (by decide))
  refine ⟨e, _, [], hread, rfl, fun k hk => ?_⟩
  cases k with
  | zero => cases hk
  | succ k => exact moreExpressions_end k (.of_is htok (by decide))

/-- The first expression ends at the comma. -/
theorem Reads.moreExpressions {e es : Tree} (he : Reads (.rule .expression) p e)
    (hes : Reads .expressions q es) :
    Reads .expressions (p ++ .sign "," :: q) (Tree.follow es e) := by
  intro ts tok rest hspans htok
  obtain ⟨mid, hp, hmid⟩ := Spans.append_iff.1 hspans
  have hlength := hp.length_eq
  obtain ⟨comma, ts', rfl, hcomma, hq⟩ := hmid
  have hread := he.read rfl hp (.of_is hcomma (by decide))
  obtain ⟨e', mid', more, he', rfl, hmore⟩ := hes ts' tok rest hq htok
  refine ⟨e, _, e' :: more, hread, rfl, fun k hk => ?_⟩
  cases k with
  | zero => cases hk
  | succ k =>
    simp only [List.length_cons] at hlength
    exact moreExpressions_expression k hcomma he' (hmore k (by omega))

/-- A list that starts with an expression is not empty. -/
theorem Reads.someExpressions {w : Word} {es : Tree} (hw : w.starts = true)
    (h : Reads .expressions (w :: p) es) :
    Reads (.rule .expressionList) (Word.sign "(" :: (w :: p) ++ [Word.sign ")"]) es := by
  rintro _ rest ⟨tok, ts, rfl, htok, hspans⟩ -
  obtain ⟨mid, hp, hend⟩ := Spans.append_iff.1 hspans
  obtain ⟨tok', rfl, htok'⟩ := Spans.one_iff.1 hend
  obtain ⟨e, mid, more, he, rfl, hmore⟩ := h ts tok' rest hp htok'
  have hstart : Stops [")"] ts := by
    obtain ⟨first, ts', rfl, hfirst, -⟩ := hp
    exact (Stops.of_is hfirst.is (Word.tag_of_starts hw)).mono (by simp)
  exact read_expressions htok hstart he (hmore _ (by unfold budget; omega)) htok'

/-! ### Blocks -/

/-- The last statement of a block, with semicolons and the brace behind it. -/
theorem Reads.lastStatement {s : Tree} (h : Reads (.rule .statement) p s) :
    Reads .statements p (Tree.node "block" [("statement", s)]) := by
  intro ts mid tok rest j hspans hsigns htok
  -- the statement ends at a semicolon or at the brace
  have hahead : ∃ tag ∈ [";", "\x7d"], headTag mid = .ok (.text tag) := by
    cases j with
    | zero =>
      have hmid : mid = tok :: rest := hsigns
      exact ⟨"\x7d", by simp, hmid ▸ htok⟩
    | succ j =>
      obtain ⟨sign, mid', rfl, hsign, -⟩ := hsigns
      exact ⟨";", by simp, hsign⟩
  have hends : EndsStatement s mid := by
    obtain ⟨tag, hmem, htag⟩ := hahead
    refine ⟨.text tag, ?_, htag, ?_⟩
    · revert tag; simp
    · revert tag; simp
  refine ⟨s, mid, [], h ts mid hspans hends, hahead, rfl, fun k hk => ?_⟩
  have hlength := hspans.length_eq
  have hlength' := hsigns.length_eq
  simp only [List.length_cons] at hlength'
  -- one round finds the end behind the semicolons, and one finds the brace
  obtain ⟨k, rfl⟩ : ∃ n, k = n + 2 := ⟨k - 2, by omega⟩
  exact moreStatements_end hsigns htok

/-- One statement, semicolons, and the statements behind them. -/
theorem Reads.moreStatements (n : Nat) {w : Word} {s body : Tree}
    (hs : Reads (.rule .statement) p s) (hw : w.tag ∉ [";", "\x7d"])
    (hbody : Reads .statements (w :: q) body) :
    Reads .statements (p ++ List.replicate (n + 1) (Word.sign ";") ++ w :: q)
      (Tree.node "block" [("statement", s), ("next", body)]) := by
  intro ts mid tok rest j hspans hsigns htok
  obtain ⟨mid₂, hfirst, hq⟩ := Spans.append_iff.1 hspans
  obtain ⟨mid₁, hp, hsigns'⟩ := Spans.append_iff.1 hfirst
  obtain ⟨s', mid', more, hs', ⟨tag, htag, hend⟩, rfl, hmore⟩ := hbody _ _ _ _ _ hq hsigns htok
  -- behind the semicolons a statement starts
  have hstart : Stops [";", "\x7d"] mid₂ := by
    obtain ⟨first, ts', rfl, hfirst, -⟩ := hq
    exact .of_is hfirst.is hw
  have hahead : headTag mid₁ = .ok (.text ";") := by
    obtain ⟨sign, mid', rfl, hsign, -⟩ := hsigns'
    exact hsign
  have hends : EndsStatement s mid₁ := ⟨.text ";", by simp, hahead, by simp⟩
  refine ⟨s, mid₁, s' :: more, hs _ _ hp hends, ⟨";", by simp, hahead⟩, rfl, fun k hk => ?_⟩
  have hlength := hp.length_eq
  have hlength' := hsigns'.length_eq
  rw [List.length_replicate] at hlength'
  cases k with
  | zero => cases hk
  | succ k =>
    exact moreStatements_statement k hsigns' hstart hs' htag hend (hmore k (by omega))

/-- Semicolons alone make a block without statements. -/
theorem Reads.emptyBlock (n : Nat) : Reads (.rule .blockStatement)
    (Word.sign "\x7b" :: List.replicate n (.sign ";") ++ [Word.sign "\x7d"]) (Tree.block []) := by
  rintro _ rest ⟨tok, ts, rfl, htok, hspans⟩ -
  obtain ⟨mid, hsigns, hend⟩ := Spans.append_iff.1 hspans
  obtain ⟨tok', rfl, htok'⟩ := Spans.one_iff.1 hend
  exact read_emptyBlock htok hsigns htok'

/-- Semicolons may stand in front of the first statement and behind the last one. -/
theorem Reads.block (n k : Nat) {w : Word} {body : Tree} (hw : w.tag ∉ [";", "\x7d"])
    (h : Reads .statements (w :: p) body) :
    Reads (.rule .blockStatement) (Word.sign "\x7b" :: List.replicate n (Word.sign ";") ++
      (w :: p) ++ List.replicate k (Word.sign ";") ++ [Word.sign "\x7d"]) body := by
  rintro _ rest ⟨tok, ts, rfl, htok, hspans⟩ -
  obtain ⟨mid₃, hspans, hend⟩ := Spans.append_iff.1 hspans
  obtain ⟨mid₂, hspans, hsigns'⟩ := Spans.append_iff.1 hspans
  obtain ⟨mid₁, hsigns, hp⟩ := Spans.append_iff.1 hspans
  obtain ⟨tok', rfl, htok'⟩ := Spans.one_iff.1 hend
  obtain ⟨s, mid', more, hs, -, rfl, hmore⟩ := h _ _ _ _ _ hp hsigns' htok'
  have hstart : Stops [";", "\x7d"] mid₁ := by
    obtain ⟨first, ts', rfl, hfirst, -⟩ := hp
    exact .of_is hfirst.is hw
  have hlength := hsigns.length_eq
  exact read_block htok hsigns hstart hs (hmore _ (by unfold budget; omega)) htok'

/-! ### Statements -/

/-- The end of a statement is the end of the expression in it. -/
theorem Reads.read_of_ends {e t : Tree} {ts rest : List Token} (h : Reads (.rule .expression) p e)
    (hspans : Spans ts p rest) (hrest : EndsStatement t rest) :
    expression.read .returns ts = .ok (e, rest) :=
  h.read rfl hspans (hrest.stops.mono (List.subset_cons_self _ _))

/-- An assignment ends as its expression does. -/
theorem Reads.assignment (v : Value) {e : Tree} (h : Reads (.rule .expression) p e) :
    Reads (.rule .assignment) (.name v :: .sign "=" :: p)
      (Tree.assign .returns (Tree.leaf .returns "<identifier>" v) e) := by
  rintro _ rest ⟨name, _, rfl, hname, sign, ts, rfl, hsign, hspans⟩ hrest
  exact read_assignment hname hsign (h.read_of_ends hspans hrest)

/-- The keyword is at the head of the function as well. -/
theorem Reads.functionStatement (v : Value) {e : Tree}
    (h : Reads (.rule .expression) (.sign "function" :: p) e) :
    Reads (.rule .functionStatement) (.define :: .defined v :: p)
      (Tree.assign .returns (Tree.leaf .returns "<identifier>" v) e) := by
  rintro _ rest ⟨keyword, _, rfl, hkeyword, name, ts, rfl, hname, hspans⟩ hrest
  have hfunction : Spans (keyword :: ts) (.sign "function" :: p) rest := .sign hkeyword.1 hspans
  exact read_functionStatement hkeyword hname (h.read_of_ends hfunction hrest)

/-- The condition of an `if` or a `while`, in its parentheses. -/
theorem Reads.condition {c : Tree} {ts mid : List Token} (h : Reads (.rule .expression) p c)
    (hspans : Spans ts (Word.sign "(" :: p ++ [Word.sign ")"]) mid) (closing : String) :
    readCondition (Rule.read .returns) closing ts = .ok (c, mid) := by
  obtain ⟨tok, ts, rfl, htok, hspans⟩ := hspans
  obtain ⟨mid', hp, hend⟩ := Spans.append_iff.1 hspans
  obtain ⟨tok', rfl, htok'⟩ := Spans.one_iff.1 hend
  exact read_condition closing htok htok' (h.read rfl hp (.of_is htok' (by decide)))

/-- Without `else` the statement below the condition is open at its end. -/
theorem Reads.ifThen {c s : Tree} (hc : Reads (.rule .expression) p c)
    (hs : Reads (.rule .statement) q s) :
    Reads (.rule .ifStatement) (.sign "if" :: .sign "(" :: p ++ .sign ")" :: q)
      (Tree.branch .returns c s none) := by
  rintro _ rest ⟨tok, ts, rfl, htok, hspans⟩ hrest
  have hspans' : Spans ts ((Word.sign "(" :: p ++ [Word.sign ")"]) ++ q) rest := by
    simpa using hspans
  obtain ⟨mid, hcondition, hq⟩ := Spans.append_iff.1 hspans'
  have hopen : Tree.Open (Tree.branch .returns c s none) := .branch c s
  have hends : EndsStatement s rest := hrest.part fun _ => hopen
  exact read_ifThen rfl htok (hc.condition hcondition) (hs _ _ hq hends) (hrest.stops_else hopen)

/-- With `else` the statement in front of it has to be closed. -/
theorem Reads.ifElse {q' : List Word} {c s a : Tree} (hc : Reads (.rule .expression) p c)
    (hs : Reads (.rule .statement) q s) (hclosed : Tree.Closed s)
    (ha : Reads (.rule .statement) q' a) :
    Reads (.rule .ifStatement)
      (.sign "if" :: .sign "(" :: p ++ .sign ")" :: q ++ .sign "else" :: q')
      (Tree.branch .returns c s (some a)) := by
  rintro _ rest ⟨tok, ts, rfl, htok, hspans⟩ hrest
  have hspans' : Spans ts
      ((Word.sign "(" :: p ++ [Word.sign ")"]) ++ (q ++ Word.sign "else" :: q')) rest := by
    simpa using hspans
  obtain ⟨mid, hcondition, hparts⟩ := Spans.append_iff.1 hspans'
  obtain ⟨mid', hq, halternative⟩ := Spans.append_iff.1 hparts
  obtain ⟨tok', ts', rfl, htok', hq'⟩ := halternative
  have hends : EndsStatement s (tok' :: ts') := .of_closed htok' (by simp) hclosed
  have hends' : EndsStatement a rest := hrest.part (.alternative c s)
  exact read_ifElse rfl htok (hc.condition hcondition) (hs _ _ hq hends) htok' (ha _ _ hq' hends')

/-- The loop ends as its statement does. -/
theorem Reads.loop {c s : Tree} (hc : Reads (.rule .expression) p c)
    (hs : Reads (.rule .statement) q s) :
    Reads (.rule .whileStatement) (.sign "while" :: .sign "(" :: p ++ .sign ")" :: q)
      (Tree.loop .returns c s) := by
  rintro _ rest ⟨tok, ts, rfl, htok, hspans⟩ hrest
  have hspans' : Spans ts ((Word.sign "(" :: p ++ [Word.sign ")"]) ++ q) rest := by
    simpa using hspans
  obtain ⟨mid, hcondition, hq⟩ := Spans.append_iff.1 hspans'
  exact read_while htok (hc.condition hcondition) (hs _ _ hq (hrest.part (.loop c)))

/-- Behind a bare return the statement ends. -/
theorem Reads.giveBack : Reads (.rule .returnStatement) [.sign "return"] (Tree.giveBack none) := by
  rintro _ rest ⟨tok, ts, rfl, htok, rfl⟩ hrest
  obtain ⟨v, hmem, hv⟩ := hrest.of_open .giveBack
  exact read_giveBack htok hv hmem

/-- No expression starts with a token that ends a statement. -/
theorem Reads.giveBackValue {w : Word} {e : Tree} (hw : w.starts = true)
    (h : Reads (.rule .expression) (w :: p) e) :
    Reads (.rule .returnStatement) (.sign "return" :: w :: p) (Tree.giveBack (some e)) := by
  rintro _ rest ⟨tok, ts, rfl, htok, hspans⟩ hrest
  have hread := h.read_of_ends hspans hrest
  obtain ⟨first, ts', rfl, hfirst, -⟩ := hspans
  have htag : w.tag ∉ ["\x7d", ";"] := by
    have hstarts := Word.tag_of_starts hw
    simp only [List.mem_cons, not_or] at hstarts
    simp [hstarts]
  exact read_giveBackValue htok hfirst.is htag hread

theorem Reads.print {es : Tree} (h : Reads (.rule .expressionList) p es) :
    Reads (.rule .printStatement) (.sign "print" :: p) (Tree.output es) := by
  rintro _ rest ⟨tok, ts, rfl, htok, hspans⟩ hrest
  exact read_print htok (h.read rfl hspans hrest)

/-- **The first one or two tokens announce the statement** that the grammar finds there. -/
theorem Derives.read_statement {closed : Tree → Prop} {r : Rule} {ws : List Word} {t : Tree}
    {ts rest : List Token} (h : Derives closed (.rule r) ws t) (hr : r ∈ forms)
    (hspans : Spans ts ws rest) (hrest : EndsStatement t rest) :
    Rule.statement.read .returns ts = r.read .returns ts := by
  cases h with
  -- eight forms have a keyword or the brace in front
  | emptyBlock | block | ifThen | ifElse | loop | giveBack | giveBackValue | print =>
    obtain ⟨tok, ts, rfl, htok, -⟩ := hspans
    exact read_statement_keyword rfl htok (by simp)
  | functionStatement =>
    obtain ⟨tok, _, rfl, htok, tok', ts, rfl, htok', -⟩ := hspans
    exact read_statement_function htok.1 htok'.1
  | assignment =>
    obtain ⟨tok, _, rfl, htok, tok', ts, rfl, htok', -⟩ := hspans
    exact read_statement_assignment htok.1 htok'
  -- an expression: the second token tells it from a function statement and from an assignment
  | expression hdisjunction =>
    have hsecond := hdisjunction.second rfl
    obtain ⟨w, ws, rfl, hw⟩ := hdisjunction.starts rfl
    have hstarts := Word.tag_of_starts hw
    simp only [List.mem_cons, not_or] at hstarts
    obtain ⟨tok, ts, rfl, htok, hspans⟩ := hspans
    refine read_statement_expression htok.is (by simp [hstarts]) (fun htag => ?_) fun htag => ?_
    · have hfunction := Word.eq_function_of_starts hw htag
      subst hfunction
      obtain ⟨ws', rfl⟩ := hsecond.2 ws rfl
      obtain ⟨tok', ts', rfl, htok', -⟩ := hspans
      exact .of_is htok' (by decide)
    · obtain ⟨v, rfl⟩ := Word.eq_name_of_starts hw htag
      rcases hsecond.1 v ws rfl with rfl | ⟨tag, htag, ws', rfl⟩
      · have hts : ts = rest := hspans
        exact hts ▸ hrest.stops.mono (by simp)
      · obtain ⟨tok', ts', rfl, htok', -⟩ := hspans
        have hsign : ∀ tag ∈ "(" :: operators, tag ∉ ["="] := by decide
        exact .of_is htok' (hsign tag htag)
  | operand hlevel | binary hlevel =>
    exact absurd (List.mem_cons_of_mem _ hr) (not_mem_forms_of_level hlevel)
  | _ => exact absurd hr (by decide)

/-- A form of statement is read as a statement. -/
theorem Reads.statement {closed : Tree → Prop} {r : Rule} {ws : List Word} {t : Tree}
    (hr : r ∈ forms) (hderives : Derives closed (.rule r) ws t) (h : Reads (.rule r) ws t) :
    Reads (.rule .statement) ws t := by
  intro ts rest hspans hrest
  have hstops : Stops r.signsBehind rest := by
    refine hrest.stops.mono fun tag htag => ?_
    exact List.mem_cons_of_mem _ (signsBehind_subset r htag)
  have hfollows : r.Follows t rest := by
    unfold Follows
    split
    · exact hrest
    · exact hstops.mono (signsInside_subset r)
  have hread := (h ts rest hspans hfollows).read hstops
  exact (hderives.read_statement hr hspans hrest).trans hread

/-- **Completeness of the parser**: phrases are read back. -/
theorem Derives.reads {ph : Phrase} {ws : List Word} {t : Tree}
    (h : Derives Tree.Closed ph ws t) : Reads ph ws t := by
  induction h with
  -- leaves are one token
  | number v =>
    rintro _ rest ⟨tok, ts, rfl, htok, rfl⟩ -
    exact read_number htok
  | boolean v =>
    rintro _ rest ⟨tok, ts, rfl, htok, rfl⟩ -
    exact read_boolean htok
  | name v =>
    rintro _ rest ⟨tok, ts, rfl, htok, rfl⟩ -
    exact read_name htok
  | parenthesized _ ih => exact ih.parenthesized
  -- where a rule is applied from the same or a later token, the induction hypothesis reads it
  | negated _ ih =>
    rintro _ rest ⟨tok, ts, rfl, htok, hspans⟩ hrest
    exact read_negated htok (ih.read rfl hspans hrest)
  | function hf ih =>
    intro ts rest hspans hrest
    have hread := ih.read rfl hspans hrest
    cases hf with
    | operand hr | binary hr => cases hr
    | literal =>
      obtain ⟨tok, ts, rfl, htok, -⟩ := hspans
      exact (read_function htok).trans hread
  | uncalled _ ih => exact ih.uncalled
  | called _ hes ihf ihes =>
    obtain ⟨q, rfl⟩ := hes.expressionList_head
    exact ihf.called ihes
  | factor _ ih =>
    intro ts rest hspans hrest
    exact (read_factor ts).trans (ih.read rfl hspans hrest)
  | operand hr _ ih => exact ih.operand hr
  | binary hr htag _ _ ihl ihr => exact ihl.binary hr htag ihr
  -- an operand does not start with `!`, so the rule goes on to comparisons
  | plain he ih =>
    intro ts rest hspans hrest
    have hread := ih.read rfl hspans hrest
    obtain ⟨w, p, rfl, hw⟩ := he.starts_operand rfl
    have hstart : Stops ["!"] ts := by
      obtain ⟨tok, ts, rfl, htok, -⟩ := hspans
      exact .of_is htok.is hw
    exact (read_plain hstart).trans hread
  | not _ ih =>
    rintro _ rest ⟨tok, ts, rfl, htok, hspans⟩ hrest
    exact read_not htok (ih.read rfl hspans hrest)
  | expression _ ih =>
    intro ts rest hspans hrest
    exact (read_expression ts).trans (ih.read rfl hspans hrest)
  -- what follows is known by its first word, so that the part before it ends there
  | literal _ hbody ihxs ihbody =>
    obtain ⟨q, rfl⟩ := hbody.block_head
    exact ihxs.literal ihbody
  | noNames =>
    rintro _ rest ⟨tok, _, rfl, htok, tok', ts, rfl, htok', rfl⟩ -
    exact read_noNames htok htok'
  | someNames hxs ih =>
    obtain ⟨v, p, rfl⟩ := hxs.names_head
    exact ih.someNames
  | lastName v => exact .lastName v
  | moreNames v _ ih => exact ih.moreNames v
  | noExpressions =>
    rintro _ rest ⟨tok, _, rfl, htok, tok', ts, rfl, htok', rfl⟩ -
    exact read_noExpressions htok htok'
  | someExpressions hes ih =>
    obtain ⟨w, p, rfl, hw⟩ := hes.expressions_head
    exact ih.someExpressions hw
  | lastExpression _ ih => exact ih.lastExpression
  | moreExpressions _ _ ihe ihes => exact ihe.moreExpressions ihes
  | assignment v _ ih => exact ih.assignment v
  | emptyBlock n => exact .emptyBlock n
  | block n k hs ih =>
    obtain ⟨w, p, rfl, hw⟩ := hs.statements_head
    exact ih.block n k hw
  | lastStatement _ ih => exact ih.lastStatement
  | moreStatements n _ hbody ihs ihbody =>
    obtain ⟨w, q, rfl, hw⟩ := hbody.statements_head
    exact ihs.moreStatements n hw ihbody
  | ifThen _ _ ihc ihs => exact ihc.ifThen ihs
  | ifElse _ _ hclosed _ ihc ihs iha => exact ihc.ifElse ihs hclosed iha
  | loop _ _ ihc ihs => exact ihc.loop ihs
  | giveBack => exact .giveBack
  | giveBackValue he ih =>
    obtain ⟨w, p, rfl, hw⟩ := he.starts rfl
    exact ih.giveBackValue hw
  | print _ ih => exact ih.print
  | functionStatement v _ ih => exact ih.functionStatement v
  | statement hr hform ih => exact ih.statement hr hform

end Grammar

end Stepwise
