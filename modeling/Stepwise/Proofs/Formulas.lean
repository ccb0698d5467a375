import Stepwise.Proofs.Lexing
import Stepwise.Proofs.Outcomes
import Stepwise.Proofs.RoundTrip

/-!
# Integer formulas, from text to value

A `Formula` is an expression over integers: natural numbers, names, the operators but for
the division, whose quotients are doubles. It is written with the parentheses that the
strengths of its operators ask for and no others, and with one space between its words.
The text is cut, parsed and evaluated to the value of the formula
(`Formula.run_text`), which is computed with integers of any size.

- `Formula.words`: the words of the formula, and `Formula.text`: these with spaces between;
- `Formula.words_derives`: the words are an expression with the tree of the formula;
- `Formula.value`: what the formula comes to;
- `Formula.eval_tree`: the evaluator finds this value and changes nothing.
-/

namespace Stepwise

open Grammar (Derives strength)

/-- An expression over integers. The limits are those of the texts: how many digits an integer
may have, and which names a text can start with. -/
inductive Formula where
  | literal (n : Nat) (short : (Nat.toDigits 10 n).length ≤ Value.digitLimit)
  | name (x : Identifier) (free : Lexeme.isUnreserved x.text.toList = true)
  | negate (f : Formula)
  | not (f : Formula)
  | binary (op : Operator) (whole : op ≠ .divide) (left right : Formula)

namespace Formula

/-- The formula as an expression. -/
def expression : Formula → Expression
  | .literal n _ => .number (.int n)
  | .name x _ => .name x
  | .negate f => .negate f.expression
  | .not f => .not f.expression
  | .binary op _ l r => .binary op l.expression r.expression

/-- The names in the formula. -/
def names : Formula → List Identifier
  | .literal _ _ => []
  | .name x _ => [x]
  | .negate f | .not f => f.names
  | .binary _ _ l r => l.names ++ r.names

/-! ## Writing -/

/-- How tight the outermost operator of the formula binds. -/
def tightness : Formula → Nat
  | .literal _ _ | .name _ _ | .negate _ => 9
  | .not _ => strength "!"
  | .binary op _ _ _ => strength op.sign

/-- The words with parentheses around them, if something tighter is asked for. -/
def guarded (asked given : Nat) (ws : List Word) : List Word :=
  if asked ≤ given then ws else Word.grouped 1 ws

/-- The words of the formula, with the parentheses that it needs. A minus takes an operand that
is no operation; `!` takes anything up to a comparison; the left operand of an operator may
have operators of the same strength, the right one only stronger ones. -/
def words : Formula → List Word
  | .literal n _ => [.number (.int n)]
  | .name x _ => [.name (.text x.text)]
  | .negate f => .sign "-" :: guarded 9 f.tightness f.words
  | .not f => .sign "!" :: guarded (strength "!") f.tightness f.words
  | .binary op _ l r => guarded (strength op.sign) l.tightness l.words ++
      .sign op.sign :: guarded (strength op.sign + 1) r.tightness r.words

/-- The text of the formula. -/
def text (f : Formula) : String :=
  " ".intercalate (f.words.map Word.spelling)

/-- Parentheses where the strength asks for them make a phrase of that strength. -/
theorem guarded_derives {closed : Tree → Prop} {asked given : Nat} {ws : List Word} {t : Tree}
    (hasked : asked ≤ 9) (h : Derives closed (.rule (.ofStrength given)) ws t) :
    Derives closed (.rule (.ofStrength asked)) (guarded asked given ws) t := by
  unfold guarded
  split
  · rename_i hle
    exact h.loosen hle
  · have hexpression : Derives closed (.rule (.ofStrength 0)) ws t := h.loosen (Nat.zero_le _)
    exact .loosen (j := 9) hasked (.parenthesized hexpression)

/-- The words of a formula are those of its expression. -/
theorem words_derives {closed : Tree → Prop} (f : Formula) :
    Derives closed (.rule (.ofStrength f.tightness)) f.words (f.expression.tree .returns) := by
  induction f with
  | literal n _ => exact .number (.int n)
  | name x _ => exact .name (.text x.text)
  | negate f ih => exact .negated (guarded_derives (Nat.le_refl 9) ih)
  | not f ih => exact .not (guarded_derives (by decide : strength "!" ≤ 9) ih)
  | binary op _ l r ihl ihr =>
    have hle := (Grammar.strength_operator op.sign_mem).2
    exact .operator op.sign_mem (guarded_derives (by omega) ihl) (guarded_derives (by omega) ihr)

theorem guarded_lexical {asked given : Nat} {ws : List Word} (h : ∀ w ∈ ws, w.Lexical) :
    ∀ w ∈ guarded asked given ws, w.Lexical := by
  unfold guarded
  split
  · exact h
  · have hopen : (Word.sign "(").Lexical := Word.lexical_sign (by decide)
    have hclose : (Word.sign ")").Lexical := Word.lexical_sign (by decide)
    simp only [Word.grouped, List.cons_append, List.mem_cons, List.mem_append, List.not_mem_nil,
      or_false]
    rintro w (rfl | hw | rfl)
    · exact hopen
    · exact h w hw
    · exact hclose

/-- The words of a formula can be written. -/
theorem words_lexical (f : Formula) : ∀ w ∈ f.words, w.Lexical := by
  induction f with
  | literal n short => simpa [words] using Word.lexical_number short
  | name x free => simpa [words] using Word.lexical_name free
  | negate f ih =>
    simp only [words, List.mem_cons, forall_eq_or_imp]
    exact ⟨Word.lexical_sign (by decide), guarded_lexical ih⟩
  | not f ih =>
    simp only [words, List.mem_cons, forall_eq_or_imp]
    exact ⟨Word.lexical_sign (by decide), guarded_lexical ih⟩
  | binary op _ l r ihl ihr =>
    have hop : op.sign ∈ Stage.keywords ++ Stage.operators .returns := by cases op <;> decide
    simp only [words, List.forall_mem_append, List.forall_mem_cons]
    exact ⟨guarded_lexical ihl, Word.lexical_sign hop, guarded_lexical ihr⟩

end Formula

/-! ## Values -/

/-- The operator on integers. A comparison comes to 1 or 0, and a logical operator to one of
its operands, of which 0 is the false one. -/
def Operator.onIntegers : (op : Operator) → op ≠ .divide → Int → Int → Int
  | .plus, _, a, b => a + b
  | .minus, _, a, b => a - b
  | .times, _, a, b => a * b
  | .divide, whole, _, _ => absurd rfl whole
  | .less, _, a, b => if a < b then 1 else 0
  | .greater, _, a, b => if a > b then 1 else 0
  | .lessEqual, _, a, b => if a ≤ b then 1 else 0
  | .greaterEqual, _, a, b => if a ≥ b then 1 else 0
  | .equal, _, a, b => if a = b then 1 else 0
  | .unequal, _, a, b => if a ≠ b then 1 else 0
  | .and, _, a, b => if a = 0 then 0 else b
  | .or, _, a, b => if a ≠ 0 then a else b

namespace Formula

/-- What the formula comes to, with the names standing for integers. -/
def value (ρ : Identifier → Int) : Formula → Int
  | .literal n _ => n
  | .name x _ => ρ x
  | .negate f => -f.value ρ
  | .not f => if f.value ρ = 0 then 1 else 0
  | .binary op whole l r => op.onIntegers whole (l.value ρ) (r.value ρ)

/-- How deep the operators of the formula are nested. -/
def depth : Formula → Nat
  | .literal _ _ | .name _ _ => 0
  | .negate f | .not f => f.depth + 1
  | .binary _ _ l r => max l.depth r.depth + 1

end Formula

theorem Value.relate_int (r : Relation) (a b : Int) :
    Value.relate r (.int a) (.int b) = .ok (r.holds (some (compare a b))) := by
  simp [Value.relate, Value.number?, Numeric.compare?]

theorem Value.equal_int (a b : Int) : Value.equal (.int a) (.int b) = decide (a = b) := by
  rw [Bool.eq_iff_iff]
  simp [Value.equal, Value.sameNumber, Value.number?, Numeric.equal, Numeric.compare?]

/-- **Operators on integers** are those of integers of any size, the division apart. -/
theorem Operator.apply_int (op : Operator) (whole : op ≠ .divide) (a b : Int) :
    op.apply (.int a) (.int b) = .ok (.int (op.onIntegers whole a b)) := by
  cases op with
  | divide => exact absurd rfl whole
  | plus | minus | times => rfl
  | less | greater | lessEqual | greaterEqual =>
    simp [Operator.apply, Operation.relation, Value.relate_int, Relation.holds, Value.ofTruth,
      Operator.onIntegers, compare_lt_iff_lt, compare_gt_iff_gt]
  | equal | unequal => simp [Operator.apply, Value.equal_int, Value.ofTruth, Operator.onIntegers]
  | and | or =>
    by_cases ha : a = 0 <;>
      simp [Operator.apply, Operation.conjunction, Operation.disjunction, Value.truthy, ha,
        Value.toInteger, Operator.onIntegers]

theorem Operation.invert_int (a : Int) :
    Operation.invert (.int a) = .int (if a = 0 then 1 else 0) := by
  by_cases ha : a = 0 <;> simp [Operation.invert, Value.truthy, Value.ofTruth, ha]

theorem Returning.value_of_eval {n : Nat} {t : Tree} {m m' : Machine} {v : Value}
    (h : eval n t m = (.ok (.normal v), m')) : value n t m = (.ok v, m') :=
  Action.bind_ok _ h

namespace Formula

open Returning (Completes eval value_of_eval)

/-- The evaluator finds the value of a formula with any budget above its depth, and leaves
the machine as it is. -/
theorem eval_tree {ρ : Identifier → Int} {m : Machine} (f : Formula)
    (h : ∀ x ∈ f.names, Name.resolve x.text m.environment = .ok (.int (ρ x)))
    {n : Nat} (hn : f.depth < n) :
    eval n (f.expression.tree .returns) m = (.ok (.normal (.int (f.value ρ))), m) := by
  -- each level of operators takes one step of the budget
  induction f generalizing n with
  | literal k short =>
    obtain ⟨n, rfl⟩ := Nat.exists_eq_add_of_lt hn
    rw [expression, Expression.tree_eq_listTree, Returning.eval_number]
    rfl
  | name x free =>
    obtain ⟨n, rfl⟩ := Nat.exists_eq_add_of_lt hn
    rw [expression, Expression.tree_eq_listTree, Returning.eval_name, Action.environment_bind,
      h x (by simp [names])]
    rfl
  | negate f ih =>
    obtain ⟨n, rfl⟩ := Nat.exists_eq_add_of_lt hn
    have hdepth : f.depth < (negate f).depth + n := by simp only [depth]; omega
    have hf := value_of_eval (ih h hdepth)
    rw [expression, Expression.tree_eq_listTree, Returning.eval_negate, Action.bind_ok _ hf]
    rfl
  | not f ih =>
    obtain ⟨n, rfl⟩ := Nat.exists_eq_add_of_lt hn
    have hdepth : f.depth < (not f).depth + n := by simp only [depth]; omega
    have hf := value_of_eval (ih h hdepth)
    rw [expression, Expression.tree_eq_listTree, Returning.eval_not, Action.bind_ok _ hf,
      Operation.invert_int]
    rfl
  | binary op whole l r ihl ihr =>
    obtain ⟨n, rfl⟩ := Nat.exists_eq_add_of_lt hn
    have hdepth : max l.depth r.depth < (binary op whole l r).depth + n := by
      simp only [depth]; omega
    have hl := value_of_eval
      (ihl (fun x hx => h x (by simp [names, hx])) (Nat.max_lt.1 hdepth).1)
    have hr := value_of_eval
      (ihr (fun x hx => h x (by simp [names, hx])) (Nat.max_lt.1 hdepth).2)
    rw [expression, Expression.tree_eq_listTree, Returning.eval_binary, Action.bind_ok _ hl,
      Action.bind_ok _ hr, op.apply_int whole]
    rfl

/-- The text of a formula is parsed to its tree. -/
theorem tree_text (f : Formula) :
    Program.tree .returns f.text = .ok (f.expression.tree .returns) := by
  obtain ⟨ts, htokens, hts⟩ := tokenize_words f.words_lexical
  have hexpression : Derives Tree.Closed (.rule .expression) f.words (f.expression.tree .returns) :=
    f.words_derives.loosen (Nat.zero_le _)
  have hstatement : Derives Tree.Closed (.rule .statement) f.words (f.expression.tree .returns) :=
    .statement (by decide) hexpression
  rw [Program.tree, text, htokens]
  exact hstatement.parse hts

/-- **Formulas are computed as written.** Where the names of a formula stand for integers, its
text is parsed, and evaluated to its value with nothing changed. Run as a program it comes to
the same, if it is not nested deeper than the budget of programs allows. -/
theorem run_text (f : Formula) (ρ : Identifier → Int) (m : Machine)
    (h : ∀ x ∈ f.names, Name.resolve x.text m.environment = .ok (.int (ρ x))) :
    Program.tree .returns f.text = .ok (f.expression.tree .returns) ∧
    Completes (f.expression.tree .returns) m (.ok ⟨.int (f.value ρ), false⟩) m ∧
    (f.depth < Program.budget →
      Program.run .returns f.text m = (.ok ⟨.int (f.value ρ), false⟩, m)) := by
  refine ⟨f.tree_text, ⟨nofun, _, f.eval_tree h (Nat.lt_succ_self _)⟩, fun hdepth => ?_⟩
  rw [Program.run, f.tree_text]
  exact f.eval_tree h hdepth

section TwoFrames

/-- A formula in which some operands need parentheses and others do not. -/
def mixed : Formula :=
  let i : Formula := .name ⟨"i", by decide⟩ (by decide)
  let k : Formula := .name ⟨"k", by decide⟩ (by decide)
  let one : Formula := .literal 1 (by decide)
  let two : Formula := .literal 2 (by decide)
  let product : Formula := .binary .times (by decide) (.binary .minus (by decide) i two) (.negate k)
  .binary .and (by decide) (.not (.binary .equal (by decide) i k))
    (.binary .minus (by decide) product (.binary .minus (by decide) k one))

/-- A frame with `k`, inside of one with `i`. -/
def innerFrame : Value :=
  .record [("k", .int 5), (Name.parentField, .record [("i", .int 3)])]

theorem run_text_of_two_frames :
    mixed.text = "! i == k && ( i - 2 ) * - k - ( k - 1 )" ∧
    Name.resolve "i" innerFrame = .ok (.int 3) ∧ Name.resolve "k" innerFrame = .ok (.int 5) ∧
    Program.run .returns "! i == k && ( i - 2 ) * - k - ( k - 1 )" ⟨innerFrame, "so far"⟩ =
      (.ok ⟨.int (-9), false⟩, ⟨innerFrame, "so far"⟩) := by
  have htext : mixed.text = "! i == k && ( i - 2 ) * - k - ( k - 1 )" := by decide +kernel
  let ρ : Identifier → Int := fun x => if x.text = "i" then 3 else 5
  have hnames : ∀ x ∈ mixed.names, Name.resolve x.text innerFrame = .ok (.int (ρ x)) := by
    simp [mixed, names, ρ, Name.resolve, Name.resolveParent, Name.parentField, innerFrame,
      Fields.get?]
  have hrun := (run_text mixed ρ ⟨innerFrame, "so far"⟩ hnames).2.2 (by decide)
  rw [htext] at hrun
  exact ⟨htext, rfl, rfl, hrun⟩

end TwoFrames

end Formula

end Stepwise
