import Stepwise.Proofs.FaultOrigins
import Stepwise.Proofs.ParserLocality
import Stepwise.Proofs.StatementStages
import Stepwise.Proofs.TokenStages

/-!
# The first two stages

`assignments` adds names and statements to `expressions`. What `expressions` can read is a
calculation, and `assignments` reads the same one and gives it the same value, without a look at
the environment (`Program.assignments_extends_expressions`).

- `Calculation`: numbers with arithmetic between them, and the value that it has;
- `Calculation.evaluate_tree`: all stages up to `conditions` evaluate the tree of a calculation to
  its value;
- `Rule.Copied`: what one reading gives is a calculation, and another one gives the same. So it is
  with a rule at the first stage and at the second (`apply_copied`).
-/

namespace Stepwise

open Token (headTag Is)

/-! ## Calculations -/

/-- The operators that every stage knows. -/
def Operator.arithmetic : List Operator := [.plus, .minus, .times, .divide]

/-- Every stage knows the operators of arithmetic. -/
theorem Operator.find?_arithmetic (st : Stage) {op : Operator} (h : op ∈ arithmetic) :
    Operation.find? st (.text op.sign) = some op.apply := by
  cases op <;> first | rfl | simp [arithmetic] at h

/-- Numbers, and arithmetic on calculations. -/
inductive Calculation where
  | number (v : Value)
  | binary (op : Operator) (hop : op ∈ Operator.arithmetic) (left right : Calculation)

namespace Calculation

/-- The tree of a calculation, the same at all stages up to `conditions`. -/
def tree : Calculation → Tree
  | .number v => Tree.leaf .expressions "number" v
  | .binary op _ left right => Tree.binary .expressions op.sign left.tree right.tree

/-- The number that a calculation comes to. -/
def value : Calculation → Except Fault Value
  | .number v => Node.number (Tree.leaf .expressions "number" v)
  | .binary op _ left right => do
    let a ← left.value
    let b ← right.value
    op.apply a b

/-- How deep operations stand in each other. -/
def depth : Calculation → Nat
  | .number _ => 1
  | .binary _ _ left right => max left.depth right.depth + 1

/-- Every calculation comes to an end. -/
theorem value_answers (c : Calculation) : Answers (· ≠ .exhausted) Value.Ordinary c.value := by
  induction c with
  | number v =>
    cases v with
    | int | float => trivial
    | null | bool | text | list | record => exact .error (by simp)
  | binary op hop left right ihleft ihright =>
    refine ihleft.bind fun a ha => ihright.bind fun b hb => ?_
    refine (op.apply_answers ha hb).imp ?_ fun _ h => h
    rintro _ h rfl
    cases h

/-- A calculation does not fail for want of budget. -/
theorem value_ne_exhausted (c : Calculation) : c.value ≠ .error .exhausted := by
  intro h
  have hvalue := c.value_answers
  rw [h] at hvalue
  exact hvalue rfl

section Evaluate

variable {st : Stage} (hst : st.has .blocks = false)
include hst

theorem evaluate_number (v : Value) (n : Nat) (mode : Mode) :
    evaluate st (n + 1) mode (number v).tree = do
      return .normal (← (number v).value) := by
  cases st <;> first | cases hst; done | (cases mode <;> rfl)

/-- An operator is applied to the values of its operands, the left one first. -/
theorem evaluate_binary {op : Operator} (hop : op ∈ Operator.arithmetic)
    (left right : Calculation) (n : Nat) (mode : Mode) :
    evaluate st (n + 1) mode (binary op hop left right).tree = do
      let a ← valueAt st n left.tree
      let b ← valueAt st n right.tree
      return .normal (← op.apply a b) := by
  have hoperands : Node.operands (evaluate st n) (binary op hop left right).tree = do
      let a ← valueAt st n left.tree
      let b ← valueAt st n right.tree
      return (a, b) := rfl
  have hstep : evaluate st (n + 1) mode (binary op hop left right).tree =
      op.onOperands (evaluate st n) (binary op hop left right).tree := by
    cases st with
    | expressions | assignments | booleans | conditions =>
      exact Operator.plain_step (Operator.find?_arithmetic _ hop) rfl
    | blocks | scopes | functions | returns => cases hst
  rw [hstep, Operator.onOperands, hoperands]
  simp only [bind_assoc, pure_bind]

/-- Two stages up to `conditions` do the same to a calculation within every budget. -/
theorem evaluate_eq {st' : Stage} (hst' : st'.has .blocks = false) (c : Calculation) (n : Nat)
    (mode : Mode) : evaluate st' n mode c.tree = evaluate st n mode c.tree := by
  induction c generalizing n mode with
  | number v =>
    cases n with
    | zero => rfl
    | succ n => rw [evaluate_number hst, evaluate_number hst']
  | binary op hop left right ihleft ihright =>
    cases n with
    | zero => rfl
    | succ n =>
      rw [evaluate_binary hst, evaluate_binary hst', valueAt, valueAt, ihleft, ihright]

/-- **The tree of a calculation comes to its value**, on every machine and without a trace on it. -/
theorem evaluate_tree (c : Calculation) {n : Nat} (hn : c.depth ≤ n) (mode : Mode) :
    evaluate st n mode c.tree = liftM (c.value.map Completion.normal) := by
  induction c generalizing n mode with
  | number v =>
    obtain ⟨n, rfl⟩ := Nat.exists_eq_succ_of_ne_zero (Nat.ne_zero_of_lt hn)
    rw [evaluate_number hst]
    cases (number v).value <;> rfl
  | binary op hop left right ihleft ihright =>
    obtain ⟨n, rfl⟩ := Nat.exists_eq_succ_of_ne_zero (Nat.ne_zero_of_lt hn)
    -- the depth of the node leaves enough budget for both operands
    have hn := Nat.max_le.1 (Nat.le_of_succ_le_succ hn)
    rw [evaluate_binary hst, valueAt, valueAt, ihleft hn.1, ihright hn.2, value]
    cases left.value with
    | error e => rfl
    | ok a =>
      cases right.value with
      | error e => rfl
      | ok b =>
        show (liftM (op.apply a b) >>= fun v => pure (.normal v)) =
          (liftM ((op.apply a b).map Completion.normal) : Action Completion)
        cases op.apply a b <;> rfl

end Evaluate

end Calculation

/-! ## Reading calculations -/

namespace Rule

variable {rule rule' : Rule → List Token → Reading} {operand : Rule} {signs : List String}

/-- The first reading, if it gives anything, gives a calculation, and the second one gives the
same. -/
def Copied (x x' : Reading) : Prop :=
  Yields (fun p => (∃ c : Calculation, c.tree = p.1) ∧ x' = .ok p) x

/-- A chain of operators is copied if its operands are. -/
theorem leftward_copied (hoperand : ∀ ts, Copied (rule operand ts) (rule' operand ts))
    (hsigns : ∀ tag ∈ signs, ∃ op ∈ Operator.arithmetic, op.sign = tag) :
    ∀ (n : Nat) (left : Calculation) (ts : List Token),
      Copied (leftward .expressions rule operand signs n left.tree ts)
        (leftward .assignments rule' operand signs n left.tree ts)
  | 0, _, _ => .error _
  | n + 1, left, ts => by
    intro p hp
    rcases leftward_inv hp with
      ⟨hstops, rfl⟩ | ⟨tag, t, more, right, rest, rfl, ht, htag, hright, hp⟩
    · rw [leftward_end n hstops]
      exact ⟨⟨left, rfl⟩, rfl⟩
    · obtain ⟨op, hop, rfl⟩ := hsigns tag htag
      obtain ⟨⟨right, rfl⟩, hagain⟩ := hoperand more _ hright
      rw [leftward_round ht htag, hagain]
      exact leftward_copied hoperand hsigns n (.binary op hop left right) rest p hp

theorem readLeftward_copied (hoperand : ∀ ts, Copied (rule operand ts) (rule' operand ts))
    (hsigns : ∀ tag ∈ signs, ∃ op ∈ Operator.arithmetic, op.sign = tag) (n : Nat)
    (ts : List Token) :
    Copied (readLeftward .expressions rule n operand signs ts)
      (readLeftward .assignments rule' n operand signs ts) := by
  refine .bind ?_
  rintro ⟨_, rest⟩ hleft
  obtain ⟨⟨left, rfl⟩, hagain⟩ := hoperand ts _ hleft
  rw [readLeftward, hagain]
  exact leftward_copied hoperand hsigns n left rest

theorem readSimple_number {st : Stage} (hst : st.has .blocks = false) {ts : List Token}
    (h : headTag ts = .ok (.text "number")) :
    readSimple st rule operand ts = readLeaf st "number" ts := by
  simp [readSimple, h, Value.isText, Stage.numberTag, Stage.literalTag, hst]

/-- At `expressions` a factor is a number or stands in parentheses. -/
theorem readSimple_numberOrOpen (ts : List Token) :
    Yields (fun _ => ∃ tag ∈ ["number", "("], headTag ts = .ok (.text tag))
      (readSimple .expressions rule operand ts) := by
  have hlater : ∀ {b : Bool} {feature : Stage}, (b && Stage.has .expressions feature) = true →
      Stage.has .expressions feature = true := fun h => (Bool.and_eq_true_iff.1 h).2
  refine .bind fun v hv =>
    .ite (fun h _ _ => ⟨"number", by decide, headTag_of_isText hv h⟩) fun _ =>
    .ite (fun h => absurd (hlater h) (by decide)) fun _ =>
    .ite (fun h => absurd (hlater h) (by decide)) fun _ =>
    .ite (fun h _ _ => ⟨"(", by decide, headTag_of_isText hv h⟩) fun _ =>
    .ite (fun h => absurd (hlater h) (by decide)) fun _ =>
    .ite (fun h => absurd (hlater h) (by decide)) fun _ => .error _

/-- A number is copied. -/
theorem readLeaf_copied (ts : List Token) :
    Copied (readLeaf .expressions "number" ts) (readLeaf .assignments "number" ts) := by
  refine .bind fun v hv => .pure ⟨⟨.number v, rfl⟩, ?_⟩
  rw [readLeaf, hv]
  rfl

/-- What is in parentheses is copied, if the expression is. -/
theorem parenthesized_copied (h : ∀ ts, Copied (rule .expression ts) (rule' .expression ts))
    (ts : List Token) :
    Copied (parenthesized .expressions rule ts) (parenthesized .assignments rule' ts) := by
  refine .bind ?_
  rintro ⟨e, rest⟩ hinner
  obtain ⟨hc, hagain⟩ := h _ _ hinner
  have hclosing : parenthesized .assignments rule' ts =
      nextIs ")" rest >>= fun closed =>
        if closed then pure (e, rest.drop 1) else throw .unclosed := by
    show rule' .expression (ts.drop 1) >>= _ = _
    rw [hagain]
    rfl
  rw [hclosing]
  refine .bind fun closed hclosed => .ite (fun htrue => .pure ⟨hc, ?_⟩) fun _ => .error _
  rw [hclosed, htrue]
  rfl

/-- A simple expression of `expressions` is a number or one in parentheses, and is copied. -/
theorem readSimple_copied (h : ∀ ts, Copied (rule .expression ts) (rule' .expression ts))
    (ts : List Token) :
    Copied (readSimple .expressions rule operand ts)
      (readSimple .assignments rule' operand ts) := by
  intro p hp
  obtain ⟨tag, htag, hhead⟩ := readSimple_numberOrOpen ts p hp
  simp only [List.mem_cons, List.not_mem_nil, or_false] at htag
  rcases htag with rfl | rfl
  · rw [readSimple_number rfl hhead] at hp ⊢
    exact readLeaf_copied ts p hp
  · rw [readSimple_open hhead] at hp ⊢
    exact parenthesized_copied h ts p hp

/-- The rules of `expressions`. -/
def calculations : List Rule := [expression, sum, product, factor]

/-- **What `expressions` reads, `assignments` reads.** -/
theorem apply_copied : ∀ (n : Nat), ∀ r ∈ calculations, ∀ ts : List Token,
    Copied (apply .expressions n r ts) (apply .assignments n r ts)
  | 0, _, _, _ => .error _
  | n + 1, r, hr, ts => by
    have ih := apply_copied n
    have hplus : ∀ tag ∈ ["+", "-"], ∃ op ∈ Operator.arithmetic, op.sign = tag := by decide
    have htimes : ∀ tag ∈ ["*", "/"], ∃ op ∈ Operator.arithmetic, op.sign = tag := by decide
    simp only [calculations, List.mem_cons, List.not_mem_nil, or_false] at hr
    rcases hr with rfl | rfl | rfl | rfl
    · exact ih .sum (by decide) ts
    · exact readLeftward_copied (ih .product (by decide)) hplus n ts
    · exact readLeftward_copied (ih .factor (by decide)) htimes n ts
    · exact readSimple_copied (ih .expression (by decide)) ts

/-- Every calculation starts as a factor does. -/
theorem apply_numberOrOpen : ∀ (n : Nat), ∀ r ∈ calculations, ∀ ts : List Token,
    Yields (fun _ => ∃ tag ∈ ["number", "("], headTag ts = .ok (.text tag))
      (apply .expressions n r ts)
  | 0, _, _, _ => .error _
  | n + 1, r, hr, ts => by
    have ih := apply_numberOrOpen n
    simp only [calculations, List.mem_cons, List.not_mem_nil, or_false] at hr
    rcases hr with rfl | rfl | rfl | rfl
    · exact ih .sum (by decide) ts
    · exact .bind fun q hq _ _ => ih .product (by decide) ts q hq
    · exact .bind fun q hq _ _ => ih .factor (by decide) ts q hq
    · exact readSimple_numberOrOpen ts

/-- **A calculation is a statement of `assignments`**: an expression, since no name and no word of
another statement stands at its head. -/
theorem read_statement_of_calculation {ts : List Token} {p : Tree × List Token}
    (h : expression.read .expressions ts = .ok p) :
    (∃ c : Calculation, c.tree = p.1) ∧ statement.read .assignments ts = .ok p := by
  obtain ⟨tag, htag, hhead⟩ := apply_numberOrOpen _ .expression (by decide) ts p h
  obtain ⟨hc, hagain⟩ := apply_copied _ .expression (by decide) ts p h
  have hother : ∀ tag ∈ ["number", "("], tag ∉ expression.barred ∧ tag ≠ "identifier" := by decide
  refine ⟨hc, (read_statement_of_stops (rfl : Stage.has .assignments .assignments = true)
    (.of_headTag hhead (hother tag htag).1) fun hname => ?_).trans hagain⟩
  rw [hhead] at hname
  exact absurd (Value.text.inj (Except.ok.inj hname)) (hother tag htag).2

end Rule

/-! ## Programs -/

/-- The first two stages cut a text into the same tokens. -/
theorem tokenize_assignments (code : String) :
    tokenize .assignments code = tokenize .expressions code := by
  have hclasses : Stage.classes .assignments = Stage.classes .expressions := rfl
  have hskips : ∀ kind, Stage.skips .assignments kind = Stage.skips .expressions kind := by
    intro kind
    cases kind <;> rfl
  have hscan : Lexeme.scan .assignments code.toList = Lexeme.scan .expressions code.toList :=
    Lexeme.scanFrom_congr hclasses (fun _ _ kind _ _ => hskips kind) 0 0
  rw [tokenize, hscan]
  rfl

/-- **`assignments` is a conservative extension of `expressions`.** A text with a tree at
`expressions` has the same tree at `assignments`, whatever stands behind it. Within every budget
and on every machine the two evaluators do the same to it. The tree is the one of a calculation:
with a budget as great as its depth the evaluators come to its value, or to the fault that it has
instead, whatever the environment is, and leave the machine as it was. -/
theorem Program.assignments_extends_expressions {code : String} {t : Tree}
    (h : Program.tree .expressions code = .ok t) :
    Program.tree .assignments code = .ok t ∧
      (∀ n m, evaluate .assignments n .statement t m = evaluate .expressions n .statement t m) ∧
      ∃ c : Calculation, c.tree = t ∧ c.value ≠ .error .exhausted ∧
        ∀ n, c.depth ≤ n → ∀ m,
          evaluate .assignments n .statement t m = (c.value.map Completion.normal, m) := by
  cases htokens : tokenize .expressions code with
  | error e =>
    rw [Program.tree, htokens] at h
    cases h
  | ok ts =>
    rw [Program.tree_eq_parse htokens, parse_eq_ok_iff_read] at h
    obtain ⟨rest, hread⟩ := h
    obtain ⟨⟨c, rfl⟩, hstatement⟩ := Rule.read_statement_of_calculation hread
    refine ⟨?_, fun n m => ?_, c, rfl, c.value_ne_exhausted, fun n hn m => ?_⟩
    · rw [Program.tree_eq_parse ((tokenize_assignments code).trans htokens), parse_eq_ok_iff_read]
      exact ⟨rest, hstatement⟩
    · exact congrFun (Calculation.evaluate_eq rfl rfl c n .statement) m
    · exact congrFun (Calculation.evaluate_tree rfl c hn .statement) m

namespace Program

/-- The tree of `9-(4*2)`. -/
def nested : Tree :=
  Tree.binary .expressions "-" (Tree.leaf .expressions "number" (.int 9))
    (Tree.binary .expressions "*" (Tree.leaf .expressions "number" (.int 4))
      (Tree.leaf .expressions "number" (.int 2)))

/-- With a parenthesis too many, which both parsers drop. -/
theorem assignments_extends_expressions_nested :
    Program.tree .expressions "9-(4*2))" = .ok nested ∧
      Program.tree .assignments "9-(4*2))" = .ok nested ∧
      (∀ n m, evaluate .assignments n .statement nested m =
        evaluate .expressions n .statement nested m) ∧
      ∃ c : Calculation, c.tree = nested ∧ c.value ≠ .error .exhausted ∧
        ∀ n, c.depth ≤ n → ∀ m,
          evaluate .assignments n .statement nested m = (c.value.map Completion.normal, m) := by
  have htree : Program.tree .expressions "9-(4*2))" = .ok nested := rfl
  exact ⟨htree, assignments_extends_expressions htree⟩

end Program

end Stepwise
