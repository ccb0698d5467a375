import Stepwise.Proofs.Outlines
import Stepwise.Proofs.ParserImage

/-!
# Reading an outline back

What of a program can be told from its outline: as much of it as the sketch shows.
A line is a number, a name or a word, and its place says what it is part of, so a
sketch can be read back; only that a truth value looks like a number and a block
like the name `block`.

- `Expression.visible`, `Statement.visible`: the part that an outline shows, with
  the rest replaced by something fixed;
- `Sketch.expression`, `Sketch.statement`: reading a sketch back, which gives the
  visible part (`Statement.statement_sketch`);
- `Statement.outline_eq_iff`: two statements have one outline if and only if they
  have one visible part;
- `Value.whole`: a tree has integers only; how doubles are written is not looked at.
-/

namespace Stepwise

/-! ## The visible part -/

/-- Stands for an expression that no outline shows. -/
def Expression.hidden : Expression := .number (.int 0)

/-- The part of an expression that its outline shows: a truth value is shown as a number, a call
without callee and arguments, a function without parameters and body. -/
def Expression.visible : Expression → Expression
  | .number v => .number v
  | .boolean b => .number (.int (if b then 1 else 0))
  | .name x => .name x
  | .negate e => .negate e.visible
  | .not e => .not e.visible
  | .binary op l r => .binary op l.visible r.visible
  | .call _ _ => .call Expression.hidden []
  | .function _ _ => .function [] []

/-- How a block is shown, whatever stands in it: like a name. -/
def Identifier.block : Identifier := ⟨"block", by decide⟩

/-- The part of a statement that its outline shows: no condition, no argument of a `print`, and of
a block only that it is one. -/
def Statement.visible : Statement → Statement
  | .block _ => .expression (.name Identifier.block)
  | .branch _ s none => .branch Expression.hidden s.visible none
  | .branch _ s (some a) => .branch Expression.hidden s.visible (some a.visible)
  | .loop _ s => .loop Expression.hidden s.visible
  | .giveBack none => .giveBack none
  | .giveBack (some e) => .giveBack (some e.visible)
  | .print _ => .print []
  | .assign x e => .assign x e.visible
  | .expression e => .expression e.visible

/-- The expression is made of numbers, names and operators only. -/
def Expression.exposed : Expression → Bool
  | .number _ | .name _ => true
  | .negate e | .not e => e.exposed
  | .binary _ l r => l.exposed && r.exposed
  | .boolean _ | .call _ _ | .function _ _ => false

/-- The statement has nothing that an outline leaves out or shows like something else. -/
def Statement.exposed : Statement → Bool
  | .giveBack (some e) | .assign _ e | .expression e => e.exposed
  | .giveBack none => true
  | .print es => es.isEmpty
  | .block _ | .branch _ _ _ | .loop _ _ => false

theorem Expression.visible_of_exposed {e : Expression} (h : e.exposed = true) : e.visible = e := by
  induction e using Expression.exposed.induct <;>
    simp_all [Expression.exposed, Expression.visible]

/-- An outline hides nothing of an exposed statement. -/
theorem Statement.visible_of_exposed {s : Statement} (h : s.exposed = true) : s.visible = s := by
  cases s with
  | block | branch | loop => simp [Statement.exposed] at h
  | giveBack e =>
    cases e with
    | none => rfl
    | some e => exact congrArg (giveBack ∘ some) (Expression.visible_of_exposed h)
  | print es => rw [visible, List.isEmpty_iff.1 h]
  | assign x e => exact congrArg (assign x) (Expression.visible_of_exposed h)
  | expression e => exact congrArg expression (Expression.visible_of_exposed h)

/-! ## Reading a sketch -/

/-- The operator with the sign. -/
def Operator.ofSign (sign : String) : Operator :=
  ([.plus, .minus, .times, .divide, .less, .greater, .lessEqual, .greaterEqual, .equal, .unequal,
    .and, .or].find? fun op : Operator => op.sign == sign).getD .plus

/-- The name that is written so. -/
def Identifier.ofLabel (label : String) : Identifier :=
  if h : Lexeme.isName label.toList = true then ⟨label, h⟩ else .block

/-- The integer that is written so. -/
def Text.integer : List Char → Int
  | '-' :: cs => -(Text.number cs : Int)
  | cs => Text.number cs

/-- The expression that a line without others below it shows. -/
def Expression.ofLabel (label : String) : Expression :=
  if label = "<function_call>" then .call hidden []
  else if label = "function" then .function [] []
  else if Lexeme.isName label.toList then .name (.ofLabel label)
  else .number (.int (Text.integer label.toList))

namespace Sketch

/-- The expression that a sketch shows. -/
def expression : Sketch → Expression
  | .node label [] => .ofLabel label
  | .node label [a] => if label = "negate" then .negate a.expression else .not a.expression
  | .node label [a, b] => .binary (.ofSign label) a.expression b.expression
  | .node _ (_ :: _ :: _ :: _) => .hidden

/-- The statement that a sketch shows. -/
def statement : Sketch → Statement
  | .node label [] =>
    if label = "return" then .giveBack none
    else if label = "print" then .print []
    else .expression (.ofLabel label)
  | .node label [a] =>
    if label = "if" then .branch .hidden a.statement none
    else if label = "while" then .loop .hidden a.statement
    else if label = "return" then .giveBack (some a.expression)
    else .expression (expression (.node label [a]))
  | .node label [a, b] =>
    if label = "if" then .branch .hidden a.statement (some b.statement)
    else if label = "=" then .assign (.ofLabel a.label) b.expression
    else .expression (expression (.node label [a, b]))
  | .node _ (_ :: _ :: _ :: _) => .expression .hidden

end Sketch

theorem Operator.ofSign_sign (op : Operator) : ofSign op.sign = op := by
  cases op <;> decide

theorem Identifier.ofLabel_text (x : Identifier) : ofLabel x.text = x := by
  simp [ofLabel, x.spelled]

/-- No reserved word is a name, so the words on lines of their own are no names. -/
theorem Identifier.text_ne_word {x : Identifier} (hx : Lexeme.isUnreserved x.text.toList = true) :
    ∀ word ∈ ["<function_call>", "function", "return", "print"], x.text ≠ word := by
  rintro word hword rfl
  have hname := x.spelled
  simp only [List.mem_cons, List.not_mem_nil, or_false] at hword
  -- the first word is not spelled like a name, the others are reserved
  rcases hword with h | h | h | h <;> rw [h] at hx hname <;> revert hx hname <;> decide

/-- An integer is read back from the way it is written. -/
theorem Text.integer_written (n : Int) : Text.integer (Value.int n).written.toList = n := by
  cases n with
  | ofNat m =>
    rw [Value.toList_written_ofNat]
    -- a number without a sign must not be read as one that has it
    have hminus : ∀ cs, Nat.toDigits 10 m ≠ '-' :: cs := by
      intro cs h
      have hdigit : '-'.isDigit = true :=
        Nat.isDigit_of_mem_toDigits (by decide) (by decide) (h ▸ List.mem_cons_self)
      exact absurd hdigit (by decide)
    rw [Text.integer.eq_2 _ hminus, Lexeme.number_toDigits]
    rfl
  | negSucc m =>
    rw [Value.toList_written_negSucc, Text.integer, Lexeme.number_toDigits]
    rfl

/-- A written integer is not a name, as it starts with a digit or a sign. -/
theorem Value.isName_written_int (n : Int) :
    Lexeme.isName (Value.int n).written.toList = false := by
  obtain ⟨c, cs, htext, hc, -⟩ := Value.exists_written n
  have hstart : Lexeme.isNameStart c = false := by
    have hdigits : ("0123456789".toList.all fun d => !Lexeme.isNameStart d) = true := by decide
    obtain hc | rfl := hc
    · simpa using List.all_eq_true.1 hdigits c (Lexeme.mem_digits_of_isDigit hc)
    · rfl
  rw [htext, Lexeme.isName, hstart, Bool.false_and]

/-- No integer is one of the words that stand on lines of their own. -/
theorem Value.written_int_ne_word (n : Int) :
    ∀ word ∈ ["<function_call>", "function", "return", "print"], (Value.int n).written ≠ word := by
  intro word hword h
  obtain ⟨c, cs, htext, hc, -⟩ := Value.exists_written n
  rw [h] at htext
  simp only [List.mem_cons, List.not_mem_nil, or_false] at hword
  rcases hword with rfl | rfl | rfl | rfl <;> cases htext <;> revert hc <;> decide

/-! ## Labels that tell -/

/-- The labels that an outline shows for the expression: integers, and names that start with no
reserved word. -/
def Expression.Labelled : Expression → Prop
  | .number (.int _) => True
  | .number (.float _) => False
  | .name x => Lexeme.isUnreserved x.text.toList = true
  | .negate e | .not e => e.Labelled
  | .binary _ l r => l.Labelled ∧ r.Labelled
  | .boolean _ | .call _ _ | .function _ _ => True

/-- The same for a statement. -/
def Statement.Labelled : Statement → Prop
  | .block _ | .giveBack none | .print _ => True
  | .branch _ s none | .loop _ s => s.Labelled
  | .branch _ s (some a) => s.Labelled ∧ a.Labelled
  | .giveBack (some e) | .assign _ e | .expression e => e.Labelled

/-- The label of an integer tells the integer. -/
theorem Expression.ofLabel_int (n : Int) :
    ofLabel (Value.int n).written = .number (.int n) := by
  have hcall := Value.written_int_ne_word n _ (.head _)
  have hfunction := Value.written_int_ne_word n _ (.tail _ (.head _))
  simp [ofLabel, hcall, hfunction, Value.isName_written_int, Text.integer_written]

/-- The label of a name tells the name, unless it is a reserved word. -/
theorem Expression.ofLabel_text {x : Identifier} (hx : Lexeme.isUnreserved x.text.toList = true) :
    ofLabel x.text = .name x := by
  have hcall := Identifier.text_ne_word hx _ (.head _)
  have hfunction := Identifier.text_ne_word hx _ (.tail _ (.head _))
  simp [ofLabel, hcall, hfunction, x.spelled, Identifier.ofLabel_text]

/-- **The sketch of an expression shows its visible part.** -/
theorem Expression.expression_sketch {e : Expression} (he : e.Labelled) :
    e.sketch.expression = e.visible := by
  -- a leaf is known by its label, and the others by their label and the number of lines below it
  cases e with
  | number v =>
    cases v with
    | int n => exact ofLabel_int n
    | float => exact he.elim
  | boolean b => exact ofLabel_int (if b then 1 else 0)
  | name x => exact ofLabel_text he
  | negate e => exact congrArg negate (Expression.expression_sketch he)
  | not e => exact congrArg not (Expression.expression_sketch he)
  | binary op l r =>
    have hl := Expression.expression_sketch he.1
    have hr := Expression.expression_sketch he.2
    rw [sketch, Sketch.expression, Operator.ofSign_sign, hl, hr, visible]
  | call | function => rfl
termination_by structural e

/-- A sketch of an expression is not read as another statement. -/
theorem Expression.statement_sketch {e : Expression} (he : e.Labelled) :
    e.sketch.statement = .expression e.sketch.expression := by
  have leaf : ∀ {label : String}, label ≠ "return" → label ≠ "print" →
      Sketch.statement (.node label []) = .expression (.ofLabel label) := by
    intro label hreturn hprint
    rw [Sketch.statement, if_neg hreturn, if_neg hprint]
  cases e with
  | number v =>
    cases v with
    | int n =>
      exact leaf (Value.written_int_ne_word n _ (by decide))
        (Value.written_int_ne_word n _ (by decide))
    | float => exact he.elim
  | boolean b =>
    exact leaf (Value.written_int_ne_word _ _ (by decide))
      (Value.written_int_ne_word _ _ (by decide))
  | name x =>
    exact leaf (Identifier.text_ne_word he _ (by decide)) (Identifier.text_ne_word he _ (by decide))
  -- no sign of an operator is `=` or a word, which would make a statement of it
  | binary op l r => cases op <;> rfl
  | negate | not | call | function => rfl

/-- **The sketch of a statement shows its visible part.** -/
theorem Statement.statement_sketch {s : Statement} (hs : s.Labelled) :
    s.sketch.statement = s.visible := by
  cases s with
  | block => rfl
  | branch c s a =>
    cases a with
    | none => exact congrArg (branch .hidden · none) (Statement.statement_sketch hs)
    | some a =>
      have ih := Statement.statement_sketch hs.1
      have iha := Statement.statement_sketch hs.2
      simp [sketch, Sketch.statement, visible, ih, iha]
  | loop c s => exact congrArg (loop .hidden) (Statement.statement_sketch hs)
  | giveBack e =>
    cases e with
    | none => rfl
    | some e => exact congrArg (giveBack ∘ some) (Expression.expression_sketch hs)
  | print => rfl
  | assign x e =>
    have he := Expression.expression_sketch hs
    simp [sketch, Sketch.statement, visible, Sketch.label, Identifier.ofLabel_text, he]
  | expression e =>
    rw [sketch, Expression.statement_sketch hs, Expression.expression_sketch hs, visible]
termination_by structural s

/-- The visible part has the same sketch. -/
theorem Expression.sketch_visible (e : Expression) : e.visible.sketch = e.sketch := by
  cases e with
  | number | boolean | name | call | function => rfl
  | negate e => exact congrArg (fun a => Sketch.node "negate" [a]) e.sketch_visible
  | not e => exact congrArg (fun a => Sketch.node "not" [a]) e.sketch_visible
  | binary op l r => simp [visible, sketch, l.sketch_visible, r.sketch_visible]
termination_by structural e

/-- What is hidden makes no difference to the sketch. -/
theorem Statement.sketch_visible (s : Statement) : s.visible.sketch = s.sketch := by
  cases s with
  | block | print => rfl
  | branch c s a =>
    cases a with
    | none => simp [visible, sketch, s.sketch_visible]
    | some a => simp [visible, sketch, s.sketch_visible, a.sketch_visible]
  | loop c s => simp [visible, sketch, s.sketch_visible]
  | giveBack e =>
    cases e with
    | none => rfl
    | some e => simp [visible, sketch, e.sketch_visible]
  | assign x e => simp [visible, sketch, e.sketch_visible]
  | expression e => exact e.sketch_visible
termination_by structural s

/-- Two statements have one sketch if and only if they have one visible part. -/
theorem Statement.sketch_eq_iff {s s' : Statement} (hs : s.Labelled) (hs' : s'.Labelled) :
    s.sketch = s'.sketch ↔ s.visible = s'.visible := by
  constructor
  · intro h
    -- reading is a left inverse of sketching, up to what is hidden
    rw [← Statement.statement_sketch hs, h, Statement.statement_sketch hs']
  · intro h
    rw [← s.sketch_visible, h, s'.sketch_visible]

/-- **Two statements have one outline if and only if they have one visible part.** -/
theorem Statement.outline_eq_iff {st : Stage} (hst : st.outlines = true) {s s' : Statement}
    (hs : s.Fits st) (hs' : s'.Fits st) (hl : s.Labelled) (hl' : s'.Labelled) (column : Nat) :
    Tree.outline st (s.tree st) column = Tree.outline st (s'.tree st) column ↔
      s.visible = s'.visible := by
  rw [Statement.outline_tree hst hs, Statement.outline_tree hst hs', Except.ok.injEq,
    ← Statement.sketch_eq_iff hl hl']
  constructor
  · exact Sketch.text_injective s.clear_sketch s'.clear_sketch
  · exact congrArg _

/-- Where nothing is hidden, the outline determines the tree. -/
theorem Statement.outline_eq_iff_tree_eq {st : Stage} (hst : st.outlines = true) {s s' : Statement}
    (hs : s.Fits st) (hs' : s'.Fits st) (hl : s.Labelled) (hl' : s'.Labelled)
    (he : s.exposed = true) (he' : s'.exposed = true) (column : Nat) :
    Tree.outline st (s.tree st) column = Tree.outline st (s'.tree st) column ↔
      s.tree st = s'.tree st := by
  refine ⟨fun h => ?_, fun h => by rw [h]⟩
  have hvisible := (Statement.outline_eq_iff hst hs hs' hl hl' column).1 h
  rw [Statement.visible_of_exposed he, Statement.visible_of_exposed he'] at hvisible
  rw [hvisible]

/-! ## Trees with integers only -/

namespace Value

mutual

/-- No double stands in the value. -/
def whole : Value → Bool
  | .float _ => false
  | .list items => wholeItems items
  | .record fields => wholeFields fields
  | .null | .bool _ | .int _ | .text _ => true

/-- No double stands in the items of the list. -/
def wholeItems : List Value → Bool
  | [] => true
  | v :: rest => whole v && wholeItems rest

/-- No double stands in the fields of the record. -/
def wholeFields : Fields → Bool
  | [] => true
  | (_, v) :: rest => whole v && wholeFields rest

end

end Value

section Whole

open Value

variable (st : Stage)

@[simp]
theorem Tree.whole_node (tag : String) (parts : Fields) :
    (Tree.node tag parts).whole = wholeFields parts := by
  simp [Tree.node, whole, wholeFields]

@[simp]
theorem Tree.whole_leaf (tag : String) (v : Value) : (Tree.leaf st tag v).whole = v.whole := by
  unfold Tree.leaf
  split <;> simp [Tree.uniform, whole, wholeFields]

@[simp]
theorem Tree.whole_unary (tag : String) (operand : Tree) :
    (Tree.unary st tag operand).whole = operand.whole := by
  unfold Tree.unary
  split <;> simp [Tree.uniform, whole, wholeFields]

@[simp]
theorem Tree.whole_binary (tag : String) (left right : Tree) :
    (Tree.binary st tag left right).whole = (left.whole && right.whole) := by
  unfold Tree.binary
  split <;> simp [Tree.uniform, whole, wholeFields]

@[simp]
theorem Tree.whole_assign (target value : Tree) :
    (Tree.assign st target value).whole = (target.whole && value.whole) := by
  unfold Tree.assign
  split <;> simp [Tree.uniform, whole, wholeFields]

/-- An expression whose tree has integers only has labels that tell. -/
theorem Expression.labelled {st : Stage} {e : Expression} (he : e.Fits st)
    (hw : (e.tree st).whole = true) : e.Labelled := by
  cases e with
  | number v =>
    cases v with
    | int => trivial
    -- a double is what the hypothesis excludes
    | float => simp [tree, Numeric.value, whole] at hw
  | name x => exact he.2
  | negate e | not e =>
    have ih := Expression.labelled he.2 (by simpa [tree] using hw)
    exact ih
  | binary op l r =>
    have hboth : (l.tree st).whole = true ∧ (r.tree st).whole = true := by simpa [tree] using hw
    exact ⟨Expression.labelled he.2.1 hboth.1, Expression.labelled he.2.2 hboth.2⟩
  | boolean | call | function => trivial
termination_by structural e

/-- A statement whose tree has integers only has labels that tell. -/
theorem Statement.labelled {st : Stage} {s : Statement} (hs : s.Fits st)
    (hw : (s.tree st).whole = true) : s.Labelled := by
  cases s with
  | block | print => trivial
  | branch c s a =>
    cases a with
    | none =>
      -- the tree of a part is a field, and so has integers only
      have hbody : (s.tree st).whole = true := by
        revert hw
        simp only [tree, Tree.branch]
        split <;> simp [wholeFields]
      have ih := Statement.labelled hs.2.2 hbody
      exact ih
    | some a =>
      have hboth : (s.tree st).whole = true ∧ (a.tree st).whole = true := by
        revert hw
        simp only [tree, Tree.branch, if_pos hs.1]
        simp [wholeFields]
      exact ⟨Statement.labelled hs.2.2.1 hboth.1, Statement.labelled hs.2.2.2 hboth.2⟩
  | loop c s =>
    have hbody : (s.tree st).whole = true := by
      revert hw
      simp [tree, Tree.loop, wholeFields]
    have ih := Statement.labelled hs.2.2 hbody
    exact ih
  | giveBack e =>
    cases e with
    | none => trivial
    | some e =>
      exact Expression.labelled hs.2 (by simpa [tree, Tree.giveBack, wholeFields] using hw)
  | assign x e =>
    have hboth : (x.tree st).whole = true ∧ (e.tree st).whole = true := by simpa [tree] using hw
    exact Expression.labelled hs.2.2 hboth.2
  | expression e => exact Expression.labelled hs hw
termination_by structural s

end Whole

/-! ## What an outline tells about a program -/

namespace Program

/-- A tree with integers only is the tree of a statement whose outline can be read back. -/
theorem exists_labelled {st : Stage} {code : String} {t : Tree} (h : Program.tree st code = .ok t)
    (hw : t.whole = true) : ∃ s : Statement, s.Fits st ∧ s.Labelled ∧ t = s.tree st := by
  obtain ⟨s, hs, rfl⟩ := Program.tree_fits h
  exact ⟨s, hs, Statement.labelled hs hw, rfl⟩

end Program

/-- At `assignments` there is nothing that an outline hides. -/
theorem Expression.exposed_of_fits {e : Expression} (he : e.Fits .assignments) :
    e.exposed = true := by
  cases e with
  | number | name => rfl
  | negate | not | call | function => exact absurd he.1 (by decide)
  | boolean =>
    have hhas : Stage.has .assignments .booleans = true := he
    exact absurd hhas (by decide)
  | binary op l r =>
    simp [exposed, Expression.exposed_of_fits he.2.1, Expression.exposed_of_fits he.2.2]
termination_by structural e

/-- Assignments have nothing that an outline would leave out. -/
theorem Statement.exposed_of_fits {s : Statement} (hs : s.Fits .assignments) :
    s.exposed = true := by
  cases s with
  | block | loop | print => exact absurd hs.1 (by decide)
  | branch c s a => cases a <;> exact absurd hs.1 (by decide)
  | giveBack e =>
    cases e with
    | none => rfl
    | some => exact absurd hs.1 (by decide)
  | assign x e => exact Expression.exposed_of_fits hs.2.2
  | expression e => exact Expression.exposed_of_fits hs

namespace Program

/-- **An outline of assignments shows the whole tree.** Every tree of the parser with integers only
has an outline, and no other such tree has the same. -/
theorem outline_determines_tree {code code' : String} {t t' : Tree}
    (h : Program.tree .assignments code = .ok t) (h' : Program.tree .assignments code' = .ok t')
    (hw : t.whole = true) (hw' : t'.whole = true) :
    (∃ text, t.outline .assignments 0 = .ok text) ∧
      (t.outline .assignments 0 = t'.outline .assignments 0 ↔ t = t') := by
  obtain ⟨s, hs, hl, rfl⟩ := exists_labelled h hw
  obtain ⟨s', hs', hl', rfl⟩ := exists_labelled h' hw'
  exact ⟨⟨_, Statement.outline_tree rfl hs 0⟩,
    Statement.outline_eq_iff_tree_eq rfl hs hs' hl hl' (Statement.exposed_of_fits hs)
      (Statement.exposed_of_fits hs') 0⟩

theorem outline_determines_tree_of_grouping : ∃ t t' : Tree,
    Program.tree .assignments "x=y-1-z" = .ok t ∧ Program.tree .assignments "x=y-(1-z)" = .ok t' ∧
      t.whole = true ∧ t'.whole = true ∧ t ≠ t' ∧
      t.outline .assignments 0 ≠ t'.outline .assignments 0 := by
  let name (x : String) : Tree := Tree.uniform "identifier" (.text x) .null .null
  let minus (left right : Tree) : Tree := Tree.uniform "-" .null left right
  let one : Tree := Tree.uniform "number" (.int 1) .null .null
  let t : Tree := Tree.uniform "=" .null (name "x") (minus (minus (name "y") one) (name "z"))
  let t' : Tree := Tree.uniform "=" .null (name "x") (minus (name "y") (minus one (name "z")))
  have h : Program.tree .assignments "x=y-1-z" = .ok t := rfl
  have h' : Program.tree .assignments "x=y-(1-z)" = .ok t' := rfl
  have hne : t ≠ t' := by simp [t, t', name, minus, Tree.uniform, Tree.node]
  exact ⟨t, t', h, h', rfl, rfl, hne, fun houtline =>
    hne ((outline_determines_tree h h' rfl rfl).2.1 houtline)⟩

/-- **What an outline shows from `functions` on.** Every tree of the parser with integers only has
an outline, and two trees have the same one if and only if the visible parts of their statements
are the same; so it shows the whole tree only where nothing is hidden. -/
theorem outline_shows_visible {st : Stage} (hst : st.has .functions = true) {code code' : String}
    {t t' : Tree} (h : Program.tree st code = .ok t) (h' : Program.tree st code' = .ok t')
    (hw : t.whole = true) (hw' : t'.whole = true) :
    ∃ s s' : Statement, t = s.tree st ∧ t' = s'.tree st ∧ (∃ text, t.outline st 0 = .ok text) ∧
      (t.outline st 0 = t'.outline st 0 ↔ s.visible = s'.visible) ∧
      (s.exposed = true → s'.exposed = true → (t.outline st 0 = t'.outline st 0 ↔ t = t')) := by
  have houtlines : st.outlines = true := by simp [Stage.outlines, hst]
  obtain ⟨s, hs, hl, rfl⟩ := exists_labelled h hw
  obtain ⟨s', hs', hl', rfl⟩ := exists_labelled h' hw'
  exact ⟨s, s', rfl, rfl, ⟨_, Statement.outline_tree houtlines hs 0⟩,
    Statement.outline_eq_iff houtlines hs hs' hl hl' 0,
    fun he he' => Statement.outline_eq_iff_tree_eq houtlines hs hs' hl hl' he he' 0⟩

/-- A truth value and a number, behind different conditions. -/
theorem outline_shows_visible_of_loops : ∃ t t' : Tree,
    Program.tree .returns "while(x)y=true" = .ok t ∧ Program.tree .returns "while(z)y=1" = .ok t' ∧
      t.whole = true ∧ t'.whole = true ∧ t.outline .returns 0 = t'.outline .returns 0 := by
  let x : Identifier := ⟨"x", by decide⟩
  let y : Identifier := ⟨"y", by decide⟩
  let z : Identifier := ⟨"z", by decide⟩
  let s : Statement := .loop (.name x) (.assign y (.boolean true))
  let s' : Statement := .loop (.name z) (.assign y (.number (.int 1)))
  have h : Program.tree .returns "while(x)y=true" = .ok (s.tree .returns) := rfl
  have h' : Program.tree .returns "while(z)y=1" = .ok (s'.tree .returns) := rfl
  obtain ⟨r, r', hr, hr', -, houtline, -⟩ := outline_shows_visible rfl h h' rfl rfl
  rw [← Statement.tree_injective hr, ← Statement.tree_injective hr'] at houtline
  exact ⟨_, _, h, h', rfl, rfl, houtline.2 rfl⟩

/-- Two texts with different trees, both with integers only, that have one outline. -/
def OutlinedAlike (st : Stage) (code code' outline : String) : Prop :=
  ∃ t t' : Tree, Program.tree st code = .ok t ∧ Program.tree st code' = .ok t' ∧
    t.whole = true ∧ t'.whole = true ∧ t ≠ t' ∧
    t.outline st 0 = .ok outline ∧ t'.outline st 0 = .ok outline

/-- An outline hides the conditions of `if` and `while` and what stands in a block. -/
theorem outline_hides_conditions_and_blocks :
    OutlinedAlike .functions "if(x)y" "if(z)y" "if\n    y" ∧
      OutlinedAlike .returns "if(x)y" "if(z)y" "if\n    y" ∧
      OutlinedAlike .returns "while(x)y" "while(z)y" "while\n    y" ∧
      OutlinedAlike .returns "\x7bx\x7d" "\x7by\x7d" "block" := by
  let name (x : String) : Tree := Tree.node "<identifier>" [("value", .text x)]
  let check (x : String) : Tree := Tree.node "if" [("condition", name x), ("then", name "y")]
  let loop (x : String) : Tree := Tree.node "while" [("condition", name x), ("do", name "y")]
  let block (x : String) : Tree := Tree.node "block" [("statement", name x)]
  have hcheck : check "x" ≠ check "z" := by simp [check, name, Tree.node]
  have hloop : loop "x" ≠ loop "z" := by simp [loop, name, Tree.node]
  have hblock : block "x" ≠ block "y" := by simp [block, name, Tree.node]
  exact ⟨⟨check "x", check "z", rfl, rfl, rfl, rfl, hcheck, rfl, rfl⟩,
    ⟨check "x", check "z", rfl, rfl, rfl, rfl, hcheck, rfl, rfl⟩,
    ⟨loop "x", loop "z", rfl, rfl, rfl, rfl, hloop, rfl, rfl⟩,
    ⟨block "x", block "y", rfl, rfl, rfl, rfl, hblock, rfl, rfl⟩⟩

end Program

end Stepwise
