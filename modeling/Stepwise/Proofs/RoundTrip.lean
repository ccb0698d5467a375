import Stepwise.Proofs.ParserSound
import Stepwise.Proofs.Precedence

/-!
# Parsing and writing

The trees that the parser makes at the last stage are those of the statements in which
every `if` with an `else` has a statement between the two that no `else` could continue;
and each of these trees comes back when it is written out and parsed
(`Statement.parse_round_trip`).

- `Statement.isOpen`: the last part of the statement is an `if` without `else` or a
  `return` without value;
- `Statement.wellFormed`: no open statement stands before an `else`, also not inside of a
  function;
- `Statement.words`: writes a statement, with the parts of an expression in parentheses
  and with semicolons between the statements of a block. The number of parentheses
  around an expression that is no part of another one is left open;
- `Grammar.Derives.wellFormed`: what the grammar derives from sound words is well-formed;
  `Statement.words_derives`: what is well-formed is derived from its words.
-/

namespace Stepwise

open Grammar (Derives Phrase)

/-! ## Well-formed syntax -/

/-- The last statement inside is an `if` without `else` or a `return` without value. -/
def Statement.isOpen : Statement → Bool
  | .branch _ _ none => true
  | .branch _ _ (some a) => a.isOpen
  | .loop _ s => s.isOpen
  | .giveBack none => true
  | _ => false

mutual

/-- The functions in the expression have well-formed bodies. -/
def Expression.wellFormed : Expression → Bool
  | .number _ | .boolean _ | .name _ => true
  | .negate e | .not e => e.wellFormed
  | .binary _ l r => l.wellFormed && r.wellFormed
  | .call f es => f.wellFormed && Expression.allWellFormed es
  | .function _ body => Statement.allWellFormed body

def Expression.allWellFormed : List Expression → Bool
  | [] => true
  | e :: es => e.wellFormed && Expression.allWellFormed es

/-- No open statement stands before an `else`. -/
def Statement.wellFormed : Statement → Bool
  | .block ss => Statement.allWellFormed ss
  | .branch c s none => c.wellFormed && s.wellFormed
  | .branch c s (some a) => c.wellFormed && s.wellFormed && !s.isOpen && a.wellFormed
  | .loop c s => c.wellFormed && s.wellFormed
  | .giveBack none => true
  | .giveBack (some e) => e.wellFormed
  | .print es => Expression.allWellFormed es
  | .assign _ e => e.wellFormed
  | .expression e => e.wellFormed

def Statement.allWellFormed : List Statement → Bool
  | [] => true
  | s :: ss => s.wellFormed && Statement.allWellFormed ss

end

/-- No `else` continues an expression. -/
theorem Expression.closed_tree (e : Expression) : Tree.Closed (e.tree .returns) := by
  refine Tree.closed_of_tag e.field_tag ?_
  cases e with
  | binary op l r => cases op <;> simp [Expression.tag, Operator.sign]
  | _ => simp [Expression.tag]

/-- Open statements have open trees. -/
theorem Statement.open_tree (s : Statement) : Tree.Open (s.tree .returns) ↔ s.isOpen = true := by
  cases s with
  | branch c s alternative =>
    cases alternative with
    | none => exact ⟨fun _ => rfl, fun _ => .branch _ _⟩
    | some a =>
      have ih := Statement.open_tree a
      exact ⟨fun h => ih.1 (Tree.open_alternative h), fun h => .alternative _ _ (ih.2 h)⟩
  | loop c s =>
    have ih := Statement.open_tree s
    exact ⟨fun h => ih.1 (Tree.open_body h), fun h => .loop _ (ih.2 h)⟩
  | giveBack e =>
    cases e with
    | none => exact ⟨fun _ => rfl, fun _ => .giveBack⟩
    | some e => exact iff_of_false (Tree.closed_giveBack _) Bool.false_ne_true
  | block ss =>
    have hclosed := Tree.closed_of_tag (Statement.block ss).field_tag (by simp [Statement.tag])
    exact iff_of_false hclosed Bool.false_ne_true
  | print es => exact iff_of_false (Tree.closed_of_tag rfl (by decide)) Bool.false_ne_true
  | assign x e => exact iff_of_false (Tree.closed_of_tag rfl (by decide)) Bool.false_ne_true
  | expression e => exact iff_of_false e.closed_tree Bool.false_ne_true

/-! ## What the grammar derives is well-formed -/

/-- The word of a literal holds a value of the literal's kind. -/
def Word.Sound : Word → Prop
  | .number v => ∃ n : Numeric, v = n.value
  | .boolean v => ∃ b : Bool, v = Value.ofTruth b
  | .name v | .defined v => ∃ x : Identifier, v = .text x.text
  | .sign _ | .define => True

/-- What a sound token bears is a sound word. -/
theorem Token.Bears.sound {t : Token} {w : Word} (h : Token.Bears t w)
    (ht : Token.Sound .returns t) : w.Sound := by
  cases w with
  | number v =>
    obtain ⟨n, hn⟩ := ht.number h.1
    exact ⟨n, Except.ok.inj (h.2.symm.trans hn)⟩
  | boolean v =>
    obtain ⟨b, hb⟩ := ht.boolean rfl h.1
    exact ⟨b, Except.ok.inj (h.2.symm.trans hb)⟩
  | name v | defined v =>
    obtain ⟨x, hx⟩ := ht.name h.1
    exact ⟨x, Except.ok.inj (h.2.symm.trans hx)⟩
  | sign | define => trivial

/-- Every operator of the grammar is one of the syntax. -/
theorem Operator.exists_sign {tag : String} (h : tag ∈ Rule.operators) :
    ∃ op : Operator, op.sign = tag := by
  simp only [Rule.operators, List.mem_cons, List.not_mem_nil, or_false] at h
  rcases h with rfl | rfl | rfl | rfl | rfl | rfl | rfl | rfl | rfl | rfl | rfl | rfl
  exacts [⟨.or, rfl⟩, ⟨.and, rfl⟩, ⟨.less, rfl⟩, ⟨.greater, rfl⟩, ⟨.lessEqual, rfl⟩,
    ⟨.greaterEqual, rfl⟩, ⟨.equal, rfl⟩, ⟨.unequal, rfl⟩, ⟨.plus, rfl⟩, ⟨.minus, rfl⟩,
    ⟨.times, rfl⟩, ⟨.divide, rfl⟩]

namespace Grammar

/-- The tree is that of a well-formed expression. -/
def IsExpression (t : Tree) : Prop :=
  ∃ e : Expression, e.wellFormed = true ∧ t = e.tree .returns

/-- The trees of a phrase: those of well-formed syntax. -/
def Phrase.Image : Phrase → Tree → Prop
  | .rule .statement | .rule .ifStatement | .rule .whileStatement | .rule .returnStatement
  | .rule .printStatement | .rule .functionStatement | .rule .assignment => fun t =>
      ∃ s : Statement, s.wellFormed = true ∧ t = s.tree .returns
  | .rule .blockStatement => fun t =>
      ∃ ss, Statement.allWellFormed ss = true ∧ t = Tree.block (Statement.trees .returns ss)
  | .rule .nameList => fun t => ∃ xs, t = Identifier.listTree .returns xs
  | .rule .expressionList => fun t =>
      ∃ es, Expression.allWellFormed es = true ∧ t = Expression.listTree .returns es
  | .names => fun t => ∃ x xs, t = Identifier.listTree .returns (x :: xs)
  | .expressions => fun t => ∃ e es,
      Expression.allWellFormed (e :: es) = true ∧ t = Expression.listTree .returns (e :: es)
  | .statements => fun t => ∃ s ss, Statement.allWellFormed (s :: ss) = true ∧
      t = Tree.block (Statement.trees .returns (s :: ss))
  | _ => IsExpression

theorem image_of_level {r operand : Rule} {signs : List String}
    (h : r.level? = some (operand, signs)) :
    (Phrase.rule r).Image = IsExpression ∧ (Phrase.rule operand).Image = IsExpression := by
  cases r <;> cases h <;> exact ⟨rfl, rfl⟩

/-- **What the grammar derives is well-formed**: literals bring their values from sound words,
and a statement before an `else` is closed. -/
theorem Derives.image {ph : Phrase} {ws : List Word} {t : Tree}
    (h : Derives Tree.Closed ph ws t) (hws : ∀ w ∈ ws, w.Sound) : ph.Image t := by
  -- one case for each rule: the words of a part are words of the whole, hence sound
  induction h with
  | number v =>
    obtain ⟨n, rfl⟩ := hws (.number v) (by simp)
    exact ⟨.number n, rfl, rfl⟩
  | boolean v =>
    obtain ⟨b, rfl⟩ := hws (.boolean v) (by simp)
    exact ⟨.boolean b, rfl, rfl⟩
  | name v =>
    obtain ⟨x, rfl⟩ := hws (.name v) (by simp)
    exact ⟨.name x, rfl, rfl⟩
  | parenthesized _ ih => exact ih fun w hw => hws w (by simp [hw])
  | negated _ ih =>
    obtain ⟨e, he, rfl⟩ := ih fun w hw => hws w (by simp [hw])
    exact ⟨.negate e, he, rfl⟩
  | function _ ih | uncalled _ ih | factor _ ih | plain _ ih | expression _ ih => exact ih hws
  | called _ _ ihf ihes =>
    obtain ⟨f, hf, rfl⟩ := ihf fun w hw => hws w (by simp [hw])
    obtain ⟨es, hes, rfl⟩ := ihes fun w hw => hws w (by simp [hw])
    exact ⟨.call f es, by simp [Expression.wellFormed, hf, hes], rfl⟩
  | operand hr _ ih =>
    obtain ⟨himage, himage'⟩ := image_of_level hr
    rw [himage]
    rw [himage'] at ih
    exact ih hws
  | binary hr htag _ _ ihl ihr =>
    obtain ⟨himage, himage'⟩ := image_of_level hr
    rw [himage] at ihl ⊢
    rw [himage'] at ihr
    obtain ⟨l, hl, rfl⟩ := ihl fun w hw => hws w (by simp [hw])
    obtain ⟨e, he, rfl⟩ := ihr fun w hw => hws w (by simp [hw])
    obtain ⟨op, rfl⟩ := Operator.exists_sign ((level_isExpression hr).2.2 htag)
    exact ⟨.binary op l e, by simp [Expression.wellFormed, hl, he], rfl⟩
  | not _ ih =>
    obtain ⟨e, he, rfl⟩ := ih fun w hw => hws w (by simp [hw])
    exact ⟨.not e, he, rfl⟩
  | literal _ _ ihxs ihbody =>
    obtain ⟨xs, rfl⟩ := ihxs fun w hw => hws w (by simp [hw])
    obtain ⟨ss, hss, rfl⟩ := ihbody fun w hw => hws w (by simp [hw])
    exact ⟨.function xs ss, hss, rfl⟩
  | noNames => exact ⟨[], rfl⟩
  | someNames _ ih =>
    obtain ⟨x, xs, rfl⟩ := ih fun w hw => hws w (by simp [hw])
    exact ⟨x :: xs, rfl⟩
  | lastName v =>
    obtain ⟨x, rfl⟩ := hws (.name v) (by simp)
    exact ⟨x, [], rfl⟩
  | moreNames v _ ih =>
    obtain ⟨x, rfl⟩ := hws (.name v) (by simp)
    obtain ⟨y, xs, rfl⟩ := ih fun w hw => hws w (by simp [hw])
    exact ⟨x, y :: xs, rfl⟩
  | noExpressions => exact ⟨[], rfl, rfl⟩
  | someExpressions _ ih =>
    obtain ⟨e, es, hes, rfl⟩ := ih fun w hw => hws w (by simp [hw])
    exact ⟨e :: es, hes, rfl⟩
  | lastExpression _ ih =>
    obtain ⟨e, he, rfl⟩ := ih hws
    exact ⟨e, [], by simp [Expression.allWellFormed, he], rfl⟩
  | moreExpressions _ _ ihe ihes =>
    obtain ⟨e, he, rfl⟩ := ihe fun w hw => hws w (by simp [hw])
    obtain ⟨e', es, hes, rfl⟩ := ihes fun w hw => hws w (by simp [hw])
    refine ⟨e, e' :: es, ?_, rfl⟩
    rw [Expression.allWellFormed, he, hes, Bool.and_self]
  | assignment v _ ih =>
    obtain ⟨x, rfl⟩ := hws (.name v) (by simp)
    obtain ⟨e, he, rfl⟩ := ih fun w hw => hws w (by simp [hw])
    exact ⟨.assign x e, he, rfl⟩
  | emptyBlock n => exact ⟨[], rfl, rfl⟩
  | block n k _ ih =>
    obtain ⟨s, ss, hss, rfl⟩ := ih fun w hw => hws w (by simp [hw])
    exact ⟨s :: ss, hss, rfl⟩
  | lastStatement _ ih =>
    obtain ⟨s, hs, rfl⟩ := ih hws
    exact ⟨s, [], by simp [Statement.allWellFormed, hs], rfl⟩
  | moreStatements n _ _ ihs ihbody =>
    obtain ⟨s, hs, rfl⟩ := ihs fun w hw => hws w (by simp [hw])
    obtain ⟨s', ss, hss, rfl⟩ := ihbody fun w hw => hws w (by simp [hw])
    refine ⟨s, s' :: ss, ?_, rfl⟩
    rw [Statement.allWellFormed, hs, hss, Bool.and_self]
  | ifThen _ _ ihc ihs =>
    obtain ⟨c, hc, rfl⟩ := ihc fun w hw => hws w (by simp [hw])
    obtain ⟨s, hs, rfl⟩ := ihs fun w hw => hws w (by simp [hw])
    exact ⟨.branch c s none, by simp [Statement.wellFormed, hc, hs], rfl⟩
  | ifElse _ _ hclosed _ ihc ihs iha =>
    obtain ⟨c, hc, rfl⟩ := ihc fun w hw => hws w (by simp [hw])
    obtain ⟨s, hs, rfl⟩ := ihs fun w hw => hws w (by simp [hw])
    obtain ⟨a, ha, rfl⟩ := iha fun w hw => hws w (by simp [hw])
    -- here the rule asks for a closed statement
    have hopen : s.isOpen = false := by
      rw [← Bool.not_eq_true, ← s.open_tree]
      exact hclosed
    exact ⟨.branch c s (some a), by simp [Statement.wellFormed, hc, hs, hopen, ha], rfl⟩
  | loop _ _ ihc ihs =>
    obtain ⟨c, hc, rfl⟩ := ihc fun w hw => hws w (by simp [hw])
    obtain ⟨s, hs, rfl⟩ := ihs fun w hw => hws w (by simp [hw])
    exact ⟨.loop c s, by simp [Statement.wellFormed, hc, hs], rfl⟩
  | giveBack => exact ⟨.giveBack none, rfl, rfl⟩
  | giveBackValue _ ih =>
    obtain ⟨e, he, rfl⟩ := ih fun w hw => hws w (by simp [hw])
    exact ⟨.giveBack (some e), he, rfl⟩
  | print _ ih =>
    obtain ⟨es, hes, rfl⟩ := ih fun w hw => hws w (by simp [hw])
    exact ⟨.print es, hes, rfl⟩
  | functionStatement v _ ih =>
    obtain ⟨x, rfl⟩ := hws (.defined v) (by simp)
    -- the expression starts with the keyword, which is not among the words of the statement
    obtain ⟨e, he, rfl⟩ := ih fun w hw => by
      rcases List.mem_cons.1 hw with rfl | hw
      · trivial
      · exact hws w (by simp [hw])
    exact ⟨.assign x e, he, rfl⟩
  | @statement r p t hr _ ih =>
    have hform := ih hws
    simp only [Rule.forms, List.mem_cons, List.not_mem_nil, or_false] at hr
    -- a block and an expression become statements; the other forms are statements already
    rcases hr with rfl | rfl | rfl | rfl | rfl | rfl | rfl | rfl
    · obtain ⟨ss, hss, rfl⟩ := hform
      exact ⟨.block ss, hss, rfl⟩
    · exact hform
    · exact hform
    · exact hform
    · exact hform
    · exact hform
    · exact hform
    · obtain ⟨e, he, rfl⟩ := hform
      exact ⟨.expression e, he, rfl⟩

end Grammar

/-! ## Writing -/

namespace Word

/-- Words in so many pairs of parentheses. -/
def grouped : Nat → List Word → List Word
  | 0, ws => ws
  | k + 1, ws => .sign "(" :: grouped k ws ++ [.sign ")"]

/-- The outermost parentheses of a condition, with the words around it. -/
theorem grouped_succ (k : Nat) (w : Word) (p q : List Word) :
    w :: grouped (k + 1) p ++ q = w :: .sign "(" :: grouped k p ++ .sign ")" :: q := by
  simp [grouped]

/-- The names of a list with commas between them. -/
def names : List Identifier → List Word
  | [] => []
  | [x] => [.name (.text x.text)]
  | x :: xs => .name (.text x.text) :: .sign "," :: names xs

end Word

mutual

/-- The words of an expression. Each part of it stands in parentheses, and in `k` pairs of
them if it is an argument or a part of a statement. -/
def Expression.words (k : Nat) : Expression → List Word
  | .number n => [.number n.value]
  | .boolean b => [.boolean (Value.ofTruth b)]
  | .name x => [.name (.text x.text)]
  | .negate e => .sign "-" :: Word.grouped 1 (e.words k)
  | .not e => .sign "!" :: Word.grouped 1 (e.words k)
  | .binary op l r => Word.grouped 1 (l.words k) ++ .sign op.sign :: Word.grouped 1 (r.words k)
  | .call f es => Word.grouped 1 (f.words k) ++ Word.grouped 1 (Expression.listWords k es)
  | .function xs body => .sign "function" :: Word.grouped 1 (Word.names xs) ++
      (.sign "\x7b" :: Statement.listWords k body ++ [.sign "\x7d"])

/-- The words of a list of expressions, with commas between them. -/
def Expression.listWords (k : Nat) : List Expression → List Word
  | [] => []
  | [e] => Word.grouped k (e.words k)
  | e :: es => Word.grouped k (e.words k) ++ .sign "," :: Expression.listWords k es

/-- The words of a statement. -/
def Statement.words (k : Nat) : Statement → List Word
  | .block ss => .sign "\x7b" :: Statement.listWords k ss ++ [.sign "\x7d"]
  | .branch c s none => .sign "if" :: Word.grouped (k + 1) (c.words k) ++ s.words k
  | .branch c s (some a) => .sign "if" :: Word.grouped (k + 1) (c.words k) ++ s.words k ++
      .sign "else" :: a.words k
  | .loop c s => .sign "while" :: Word.grouped (k + 1) (c.words k) ++ s.words k
  | .giveBack none => [.sign "return"]
  | .giveBack (some e) => .sign "return" :: Word.grouped k (e.words k)
  | .print es => .sign "print" :: Word.grouped 1 (Expression.listWords k es)
  | .assign x e => .name (.text x.text) :: .sign "=" :: Word.grouped k (e.words k)
  | .expression e => Word.grouped k (e.words k)

/-- The words of statements, with semicolons between them. -/
def Statement.listWords (k : Nat) : List Statement → List Word
  | [] => []
  | [s] => s.words k
  | s :: ss => s.words k ++ .sign ";" :: Statement.listWords k ss

end

/-! ## What is well-formed is derived -/

section Writing

variable {closed : Tree → Prop} {p : List Word} {e : Tree}

/-- Parentheses around an expression do not change its tree. -/
theorem Grammar.Derives.grouped (h : Derives closed (.rule .expression) p e) (k : Nat) :
    Derives closed (.rule .expression) (Word.grouped k p) e := by
  induction k with
  | zero => exact h
  | succ k ih => exact .loosen (j := 9) (Nat.zero_le _) (.parenthesized ih)

theorem Word.names_derives (x : Identifier) (xs : List Identifier) :
    Derives closed .names (Word.names (x :: xs)) (Identifier.listTree .returns (x :: xs)) := by
  induction xs generalizing x with
  | nil => exact .lastName _
  | cons y xs ih => exact .moreNames _ (ih y)

/-- The written list of parameters is derived. -/
theorem Word.nameList_derives (xs : List Identifier) :
    Derives closed (.rule .nameList) (Word.grouped 1 (Word.names xs))
      (Identifier.listTree .returns xs) := by
  cases xs with
  | nil => exact .noNames
  | cons x xs => exact .someNames (Word.names_derives x xs)

end Writing

theorem Operator.sign_mem (op : Operator) : op.sign ∈ Rule.operators := by
  cases op <;> decide

/-- A list of expressions in its parentheses, if what is inside can be derived. -/
theorem Expression.arguments_derives {k : Nat} {es : List Expression}
    (h : es ≠ [] → Derives Tree.Closed .expressions (Expression.listWords k es)
      (Expression.listTree .returns es)) :
    Derives Tree.Closed (.rule .expressionList) (Word.grouped 1 (Expression.listWords k es))
      (Expression.listTree .returns es) := by
  cases es with
  | nil => exact .noExpressions
  | cons e es => exact .someExpressions (h (List.cons_ne_nil e es))

/-- A block in its braces, if what is inside can be derived. -/
theorem Statement.block_derives {k : Nat} {ss : List Statement}
    (h : ss ≠ [] → Derives Tree.Closed .statements (Statement.listWords k ss)
      (Tree.block (Statement.trees .returns ss))) :
    Derives Tree.Closed (.rule .blockStatement)
      (.sign "\x7b" :: Statement.listWords k ss ++ [.sign "\x7d"])
      (Tree.block (Statement.trees .returns ss)) := by
  cases ss with
  | nil => exact .emptyBlock 0
  | cons s ss => simpa using Derives.block 0 0 (h (List.cons_ne_nil s ss))

mutual

/-- **What is well-formed is derived from its words**, expressions first. -/
theorem Expression.words_derives (k : Nat) : ∀ e : Expression, e.wellFormed = true →
    Derives Tree.Closed (.rule .expression) (e.words k) (e.tree .returns)
  | .number n, _ => .loosen (j := 9) (Nat.zero_le _) (.number _)
  | .boolean b, _ => .loosen (j := 9) (Nat.zero_le _) (.boolean _)
  | .name x, _ => .loosen (j := 9) (Nat.zero_le _) (.name _)
  | .negate e, he => by
    have hoperand := Derives.parenthesized (Expression.words_derives k e he)
    exact .loosen (j := 9) (Nat.zero_le _) (.negated hoperand)
  | .not e, he => by
    have hoperand := Derives.parenthesized (Expression.words_derives k e he)
    have hnegation : Derives Tree.Closed (.rule (.ofStrength 3)) _ _ :=
      .loosen (j := 9) (by decide) hoperand
    exact .loosen (j := 3) (Nat.zero_le _) (.not hnegation)
  | .binary op l r, he => by
    rw [Expression.wellFormed, Bool.and_eq_true] at he
    have hle := (Grammar.strength_operator op.sign_mem).2
    have hleft := Derives.parenthesized (Expression.words_derives k l he.1)
    have hright := Derives.parenthesized (Expression.words_derives k r he.2)
    -- operands are written in parentheses, and what is in parentheses is an operand of every level
    have hall := Derives.operator op.sign_mem (.loosen (j := 9) (by omega) hleft)
      (.loosen (j := 9) (by omega) hright)
    exact .loosen (Nat.zero_le _) hall
  | .call f es, he => by
    rw [Expression.wellFormed, Bool.and_eq_true] at he
    have hcallee := Derives.parenthesized (Expression.words_derives k f he.1)
    have harguments := Expression.arguments_derives (Expression.listWords_derives k es he.2)
    exact .loosen (j := 8) (Nat.zero_le _) (.called (.uncalled hcallee) harguments)
  | .function xs body, he => by
    have hbody := Statement.block_derives (Statement.listWords_derives k body he)
    exact .loosen (j := 9) (Nat.zero_le _)
      (.function (.literal (Word.nameList_derives xs) hbody))
termination_by structural e => e

theorem Expression.listWords_derives (k : Nat) : ∀ es : List Expression,
    Expression.allWellFormed es = true → es ≠ [] →
    Derives Tree.Closed .expressions (Expression.listWords k es) (Expression.listTree .returns es)
  | [], _, h => absurd rfl h
  | [e], hes, _ => by
    rw [Expression.allWellFormed, Bool.and_eq_true] at hes
    exact .lastExpression ((Expression.words_derives k e hes.1).grouped k)
  | e :: e' :: es, hes, _ => by
    rw [Expression.allWellFormed, Bool.and_eq_true] at hes
    have hrest := Expression.listWords_derives k (e' :: es) hes.2 (List.cons_ne_nil e' es)
    exact .moreExpressions ((Expression.words_derives k e hes.1).grouped k) hrest
termination_by structural es => es

/-- **What is well-formed is derived from its words**, statements as well. -/
theorem Statement.words_derives (k : Nat) : ∀ s : Statement, s.wellFormed = true →
    Derives Tree.Closed (.rule .statement) (s.words k) (s.tree .returns)
  | .block ss, hs =>
    .statement (by decide) (Statement.block_derives (Statement.listWords_derives k ss hs))
  | .branch c s none, hs => by
    rw [Statement.wellFormed, Bool.and_eq_true] at hs
    have hcondition := (Expression.words_derives k c hs.1).grouped k
    have hif := Derives.ifThen hcondition (Statement.words_derives k s hs.2)
    rw [← Word.grouped_succ] at hif
    exact .statement (by decide) hif
  | .branch c s (some a), hs => by
    simp only [Statement.wellFormed, Bool.and_eq_true, Bool.not_eq_true'] at hs
    obtain ⟨⟨⟨hc, hs⟩, hopen⟩, ha⟩ := hs
    -- the statement before the `else` is not open, which is what the rule asks for
    have hclosed : Tree.Closed (s.tree .returns) := by
      intro h
      rw [s.open_tree, hopen] at h
      cases h
    have hcondition := (Expression.words_derives k c hc).grouped k
    have hif := Derives.ifElse hcondition (Statement.words_derives k s hs) hclosed
      (Statement.words_derives k a ha)
    rw [← Word.grouped_succ] at hif
    exact .statement (by decide) hif
  | .loop c s, hs => by
    rw [Statement.wellFormed, Bool.and_eq_true] at hs
    have hcondition := (Expression.words_derives k c hs.1).grouped k
    have hloop := Derives.loop hcondition (Statement.words_derives k s hs.2)
    rw [← Word.grouped_succ] at hloop
    exact .statement (by decide) hloop
  | .giveBack none, _ => .statement (by decide) .giveBack
  | .giveBack (some e), hs =>
    .statement (by decide) (.giveBackValue ((Expression.words_derives k e hs).grouped k))
  | .print es, hs => by
    have harguments := Expression.arguments_derives (Expression.listWords_derives k es hs)
    exact .statement (by decide) (.print harguments)
  | .assign x e, hs =>
    .statement (by decide) (.assignment _ ((Expression.words_derives k e hs).grouped k))
  | .expression e, hs => .statement (by decide) ((Expression.words_derives k e hs).grouped k)
termination_by structural s => s

theorem Statement.listWords_derives (k : Nat) : ∀ ss : List Statement,
    Statement.allWellFormed ss = true → ss ≠ [] →
    Derives Tree.Closed .statements (Statement.listWords k ss)
      (Tree.block (Statement.trees .returns ss))
  | [], _, h => absurd rfl h
  | [s], hss, _ => by
    rw [Statement.allWellFormed, Bool.and_eq_true] at hss
    exact .lastStatement (Statement.words_derives k s hss.1)
  | s :: s' :: ss, hss, _ => by
    rw [Statement.allWellFormed, Bool.and_eq_true] at hss
    have hrest := Statement.listWords_derives k (s' :: ss) hss.2 (List.cons_ne_nil s' ss)
    have hall := Derives.moreStatements 0 (Statement.words_derives k s hss.1) hrest
    rw [List.append_assoc] at hall
    exact hall
termination_by structural ss => ss

end

/-! ## Tokens -/

namespace Word

/-- The value of a literal or a name. -/
def value? : Word → Option Value
  | .number v | .boolean v | .name v | .defined v => some v
  | .sign _ | .define => none

/-- A token that bears the word. -/
def token (w : Word) : Token :=
  Token.make w.tag w.value? 0

/-- The token that is made of a word bears it. -/
theorem token_bears (w : Word) : Token.Bears w.token w := by
  cases w with
  | sign tag => exact rfl
  | number v | boolean v | name v | defined v => exact ⟨rfl, rfl⟩
  | define => exact ⟨rfl, _, rfl⟩

theorem tokens_bear (ws : List Word) : List.Forall₂ Token.Bears (ws.map token) ws := by
  induction ws with
  | nil => exact .nil
  | cons w ws ih => exact .cons w.token_bears ih

end Word

/-- Parsing reads a statement in front of the end. -/
theorem parse_eq_ok {ts : List Token} {t : Tree} : parse .returns ts = .ok t ↔
    ∃ rest, Rule.statement.read .returns (ts ++ [Token.ending]) = .ok (t, rest) := by
  show (Rule.statement.read .returns (ts ++ [Token.ending]) >>= fun p => Except.ok p.1) = .ok t ↔ _
  cases Rule.statement.read .returns (ts ++ [Token.ending]) with
  | error e => exact ⟨nofun, nofun⟩
  | ok p => exact ⟨by rintro ⟨⟩; exact ⟨p.2, rfl⟩, by rintro ⟨rest, ⟨⟩⟩; rfl⟩

/-- The words of a statement are parsed to its tree. -/
theorem Grammar.Derives.parse {ts : List Token} {ws : List Word} {t : Tree}
    (h : Derives Tree.Closed (.rule .statement) ws t) (hts : List.Forall₂ Token.Bears ts ws) :
    Stepwise.parse .returns ts = .ok t := by
  have hspans : Spans (ts ++ [Token.ending]) ws [Token.ending] :=
    Spans.iff_forall₂.2 ⟨ts, rfl, hts⟩
  have hends : Rule.EndsStatement t [Token.ending] := ⟨.null, by simp, rfl, nofun⟩
  exact parse_eq_ok.2 ⟨[Token.ending], h.reads _ _ hspans hends⟩

/-- What is parsed from sound tokens is well-formed. -/
theorem parse_wellFormed {ts : List Token} (hts : Rule.SoundTokens .returns ts) :
    Yields (fun t => ∃ s : Statement, s.wellFormed = true ∧ t = s.tree .returns)
      (parse .returns ts) := by
  intro t ht
  obtain ⟨rest, hread⟩ := parse_eq_ok.1 ht
  obtain ⟨⟨ws, hspans, hderives⟩, -⟩ := Rule.apply_derived (fun _ h => h) _ .statement _ _ hread
  obtain ⟨p, hp, hbears⟩ := Spans.iff_forall₂.1 hspans
  -- the tokens of the phrase are among those given, but for the one that marks the end
  have hsound : ∀ tok ∈ p, Token.Sound .returns tok := by
    intro tok htok
    have hmem : tok ∈ ts ++ [Token.ending] := hp ▸ List.mem_append_left rest htok
    rcases List.mem_append.1 hmem with hmem | hmem
    · exact hts tok hmem
    · rw [List.mem_singleton.1 hmem]
      exact Token.ending_sound .returns
  have hwords : ∀ w ∈ ws, w.Sound := by
    clear hspans hderives hp
    induction hbears with
    | nil => simp
    | cons hbears _ ih =>
      simp only [List.forall_mem_cons] at hsound ⊢
      exact ⟨hbears.sound hsound.1, ih hsound.2⟩
  exact hderives.image hwords

/-- **Round trip.** What the parser makes of sound tokens, as those of any program text are, is
well-formed. A well-formed statement, written with its expressions in parentheses and with
semicolons between the statements of its blocks, is parsed to the tree of the statement. -/
theorem Statement.parse_round_trip :
    (∀ (ts : List Token) (t : Tree), Rule.SoundTokens .returns ts → parse .returns ts = .ok t →
      ∃ s : Statement, s.wellFormed = true ∧ t = s.tree .returns) ∧
    (∀ (code : String) (t : Tree), Program.tree .returns code = .ok t →
      ∃ s : Statement, s.wellFormed = true ∧ t = s.tree .returns) ∧
    ∀ (s : Statement) (k : Nat), s.wellFormed = true →
      (∃ ts, List.Forall₂ Token.Bears ts (s.words k)) ∧
      ∀ ts, List.Forall₂ Token.Bears ts (s.words k) →
        parse .returns ts = .ok (s.tree .returns) := by
  refine ⟨fun ts t hts ht => parse_wellFormed hts t ht, fun code t ht => ?_, fun s k hs => ?_⟩
  · exact (tokenize_sound .returns code).andThen (fun _ hts => parse_wellFormed hts) t ht
  · exact ⟨⟨_, Word.tokens_bear (s.words k)⟩, fun ts hts => (words_derives k s hs).parse hts⟩

/-- The statement `if (x) while (y) {} else return`. -/
def Statement.waiting : Statement :=
  .branch (.name ⟨"x", by decide⟩) (.loop (.name ⟨"y", by decide⟩) (.block []))
    (some (.giveBack none))

/-- A text of it, with a stray semicolon. -/
def Statement.waitingText : String := "if(x)while(y)\x7b;\x7delse return"

theorem Statement.parse_round_trip_of_waiting :
    waiting.wellFormed = true ∧
    List.Forall₂ Token.Bears ((waiting.words 1).map Word.token) (waiting.words 1) ∧
    parse .returns ((waiting.words 1).map Word.token) = .ok (waiting.tree .returns) ∧
    ∃ ts, tokenize .returns waitingText = .ok ts ∧ Rule.SoundTokens .returns ts ∧
      parse .returns ts = .ok (waiting.tree .returns) ∧
      ∃ s : Statement, s.wellFormed = true ∧ waiting.tree .returns = s.tree .returns := by
  have hbears := Word.tokens_bear (waiting.words 1)
  refine ⟨rfl, hbears, (parse_round_trip.2.2 waiting 1 rfl).2 _ hbears, _, rfl, ?_⟩
  have hsound := tokenize_sound .returns waitingText _ rfl
  exact ⟨hsound, rfl, parse_round_trip.1 _ _ hsound rfl⟩

end Stepwise
