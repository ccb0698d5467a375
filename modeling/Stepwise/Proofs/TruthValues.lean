import Stepwise.Proofs.FirstStages
import Stepwise.Proofs.Formulas
import Stepwise.Proofs.Sequencing

/-!
# Truth values on integers

Comparisons, `&&`, `||` and `!` say whether something holds. On integers a comparison and `!` give
1 or 0. But `&&` and `||` give one of their operands: it is 0 just if nothing holds, and else any
integer at all (`truth_operators_on_integers`).

- `Operator.Joins`, `Tree.Inverts`: what is known of a node with an operator. It may be in a chain,
  and then has one field more;
- `Operator.ends_iff`, `Tree.Inverts.ends_iff`: a node completes just if its operands do, and its
  operator has a value for theirs;
- `Operator.holds`: what an operator says of two integers.
-/

namespace Stepwise

open Action (Growing Reaches)

/-! ## Nodes -/

/-- The node has the sign of the operator and these operands. -/
structure Operator.Joins (op : Operator) (node left right : Tree) : Prop where
  tag : node.field "tag" = .ok (.text op.sign)
  left : node.field "left" = .ok left
  right : node.field "right" = .ok right

/-- The node is a `!` with this operand. -/
structure Tree.Inverts (st : Stage) (node operand : Tree) : Prop where
  tag : node.field "tag" = .ok (.text "not")
  operand : node.field (if st.has .blocks then "value" else "left") = .ok operand

theorem Operator.joins_binary (st : Stage) (op : Operator) (left right : Tree) :
    op.Joins (Tree.binary st op.sign left right) left right := by
  cases st <;> exact ⟨rfl, rfl, rfl⟩

theorem Tree.inverts_unary (st : Stage) (operand : Tree) :
    Inverts st (unary st "not" operand) operand := by
  cases st <;> exact ⟨rfl, rfl⟩

section Ends

variable {st : Stage} {mode : Mode} {node : Tree}

theorem Node.operand_eq {field : String} {t : Tree} (h : node.field field = .ok t) (n : Nat) :
    Node.operand (evaluate st n) node field = valueAt st n t := by
  simp only [Node.operand, h, Action.liftM_ok_bind]

/-- A negation inverts the value of its operand, which is in the field that the stage has for it. -/
theorem evaluate_inverting (hst : st.has .booleans = true)
    (htag : node.field "tag" = .ok (.text "not")) (n : Nat) :
    evaluate st (n + 1) mode node = (do
      let a ← Node.operand (evaluate st n) node (if st.has .blocks then "value" else "left")
      return .normal (Operation.invert a)) := by
  cases st with
  | expressions | assignments => cases hst
  | booleans | conditions =>
    cases mode <;>
      simp [evaluate, evalStep, Plain.step, Plain.statement, Plain.expression, htag, Value.isText,
        Stage.has, Stage.rank]
  | blocks | scopes | functions =>
    cases mode <;>
      simp [evaluate, evalStep, Structured.step, Structured.statement, Structured.expression, htag,
        Value.isText, Stage.has, Stage.rank]
  | returns =>
    cases node with
    | record fields =>
      simp [evaluate, evalStep, Returning.step, Returning.tagged, htag, Value.isText]
    | null | bool | int | float | text | list => cases htag

theorem valueAt_growing (st : Stage) (t : Tree) : Growing fun n => valueAt st n t :=
  .bind (evaluate_growing st .statement t) fun _ => .const _

/-- What goes on with the value of a tree goes on with the value of its completion. -/
theorem reaches_bind_valueAt {t : Tree} {f : Nat → Value → Action Completion}
    (hf : ∀ v, Growing fun n => f n v) {m m' : Machine} {d : Completion} :
    Reaches (fun n => valueAt st n t >>= f n) m (.ok d) m' ↔
      ∃ x m₁, Ends st .statement t m (.ok x) m₁ ∧ Reaches (fun n => f n x.value) m₁ (.ok d) m' := by
  rw [Reaches.bind_iff (valueAt_growing st t) hf]
  constructor
  · rintro (⟨v, m₁, hv, hrest⟩ | ⟨_, -, ⟨⟩⟩)
    obtain ⟨_ | x, hx, hvalue⟩ := Reaches.map_iff.1 hv
    · cases hvalue
    · cases hvalue
      exact ⟨x, m₁, hx, hrest⟩
  · rintro ⟨x, m₁, hx, hrest⟩
    exact .inl ⟨x.value, m₁, Reaches.map_iff.2 ⟨.ok x, hx, rfl⟩, hrest⟩

variable (hst : st.has .booleans = true)
include hst

/-- A node with an operator completes just if its operands do, the left one first, and the operator
has a value for theirs. -/
theorem Operator.ends_iff {op : Operator} {l r : Tree} (h : op.Joins node l r) {m m' : Machine}
    {d : Completion} : Ends st mode node m (.ok d) m' ↔
      ∃ x m₁ y v, Ends st .statement l m (.ok x) m₁ ∧ Ends st .statement r m₁ (.ok y) m' ∧
        op.apply x.value y.value = .ok v ∧ d = .normal v := by
  have hstep : ∀ n, evaluate st (n + 1) mode node = (do
      let a ← valueAt st n l
      let b ← valueAt st n r
      return .normal (← op.apply a b)) := by
    intro n
    rw [op.evaluate_eq hst h.tag, Operator.onOperands, Node.operands, Node.operand_eq h.left,
      Node.operand_eq h.right]
    simp only [bind_assoc, pure_bind]
  have happly : ∀ a b : Value, Growing fun _ => (do
      return .normal (← op.apply a b) : Action Completion) := fun _ _ => .const _
  rw [Ends.eq_reaches hstep,
    reaches_bind_valueAt fun a => .bind (valueAt_growing st r) (happly a)]
  simp only [reaches_bind_valueAt (happly _)]
  constructor
  · rintro ⟨x, m₁, hx, y, m₂, hy, hd⟩
    obtain ⟨v, m₃, hv, hd⟩ := Action.bind_eq_ok (Reaches.const_iff.1 hd).2
    obtain ⟨hvalue, rfl⟩ := Prod.mk.inj (hv : (op.apply x.value y.value, m₂) = _)
    cases hd
    exact ⟨x, m₁, y, v, hx, hy, hvalue, rfl⟩
  · rintro ⟨x, m₁, y, v, hx, hy, hv, rfl⟩
    refine ⟨x, m₁, hx, y, m', hy, ?_⟩
    rw [hv]
    exact Reaches.pure_iff.2 ⟨rfl, rfl⟩

/-- A `!` completes just if its operand does. -/
theorem Tree.Inverts.ends_iff {e : Tree} (h : Tree.Inverts st node e) {m m' : Machine}
    {d : Completion} : Ends st mode node m (.ok d) m' ↔
      ∃ x, Ends st .statement e m (.ok x) m' ∧ d = .normal (Operation.invert x.value) := by
  have hstep : ∀ n, evaluate st (n + 1) mode node = (do
      let a ← valueAt st n e
      return .normal (Operation.invert a)) := by
    intro n
    rw [evaluate_inverting hst h.tag, Node.operand_eq h.operand]
  have hinvert : ∀ a : Value, Growing fun _ =>
      (pure (.normal (Operation.invert a)) : Action Completion) := fun _ => .const _
  rw [Ends.eq_reaches hstep, reaches_bind_valueAt hinvert]
  constructor
  · rintro ⟨x, m₁, hx, hd⟩
    obtain ⟨hvalue, rfl⟩ := Reaches.pure_iff.1 hd
    exact ⟨x, hx, Except.ok.inj hvalue⟩
  · rintro ⟨x, hx, rfl⟩
    exact ⟨x, m', hx, Reaches.pure_iff.2 ⟨rfl, rfl⟩⟩

end Ends

/-! ## Integers -/

namespace Operator

/-- What the operator says of two integers, of which 0 is the false one. -/
def holds : Operator → Int → Int → Bool
  | .less, a, b => a < b
  | .greater, a, b => b < a
  | .lessEqual, a, b => a ≤ b
  | .greaterEqual, a, b => b ≤ a
  | .equal, a, b => a = b
  | .unequal, a, b => a ≠ b
  | .and, a, b => a ≠ 0 ∧ b ≠ 0
  | .or, a, b => a ≠ 0 ∨ b ≠ 0
  | .plus, _, _ | .minus, _, _ | .times, _, _ | .divide, _, _ => false

/-- The operators that give one of their operands. -/
def selecting : List Operator := [.and, .or]

variable {op : Operator} (whole : op ≠ .divide) (a b : Int)

/-- A comparison gives 1 or 0. -/
theorem onIntegers_of_comparison (hop : op ∉ arithmetic ++ selecting) :
    op.onIntegers whole a b = if op.holds a b then 1 else 0 := by
  cases op with
  | plus | minus | times | divide | and | or => simp [arithmetic, selecting] at hop
  | less | greater | lessEqual | greaterEqual | equal | unequal => simp [onIntegers, holds]

/-- The result is not zero just if what the operator says holds. -/
theorem onIntegers_ne_zero_iff (hop : op ∉ arithmetic) :
    op.onIntegers whole a b ≠ 0 ↔ op.holds a b = true := by
  cases op with
  | plus | minus | times | divide => simp [arithmetic] at hop
  | less | greater | lessEqual | greaterEqual | equal | unequal =>
    rw [onIntegers_of_comparison whole a b (by decide)]
    split <;> simp_all
  | and | or => by_cases ha : a = 0 <;> simp [onIntegers, holds, ha]

end Operator

/-- **Comparisons give 1 or 0, logical operators give an operand.** From `booleans` on let a node
have a comparison, `&&` or `||` as its operator. If it completes, then so do its operands, first
the left one and then the right one. If these come to the integers `a` and `b`, the node comes to
an integer `v` and to nothing else, and leaves what the right operand leaves. It is not 0 just if
what the operator says of `a` and `b` holds.

- For a comparison `v` is 1 or 0.
- For `&&` it is `b`, unless `a` is 0: then it is 0. So it need not be 1 or 0.
- For `||` it is `a`, unless `a` is 0: then it is `b`.

A `!` completes just if its operand does, with 0 if the value is true and with 1 if it is false. -/
theorem truth_operators_on_integers {st : Stage} (hst : st.has .booleans = true) (mode : Mode)
    (m : Machine) :
    (∀ op : Operator, op ∉ Operator.arithmetic → ∀ node l r, op.Joins node l r →
      (∀ d m', Ends st mode node m (.ok d) m' → ∃ x m₁ y,
        Ends st .statement l m (.ok x) m₁ ∧ Ends st .statement r m₁ (.ok y) m') ∧
      ∀ x m₁ y m' a b, Ends st .statement l m (.ok x) m₁ → Ends st .statement r m₁ (.ok y) m' →
        x.value = .int a → y.value = .int b → ∃ v : Int,
          (∀ result m₂, Ends st mode node m result m₂ ↔
            result = .ok (.normal (.int v)) ∧ m₂ = m') ∧
          (v ≠ 0 ↔ op.holds a b = true) ∧
          (op ∉ Operator.selecting → v = if op.holds a b then 1 else 0) ∧
          (op = .and → v = if a = 0 then 0 else b) ∧
          (op = .or → v = if a = 0 then b else a)) ∧
    ∀ node e, Tree.Inverts st node e → ∀ d m', Ends st mode node m (.ok d) m' ↔
      ∃ x, Ends st .statement e m (.ok x) m' ∧
        d = .normal (.int (if x.value.truthy then 0 else 1)) := by
  refine ⟨fun op hop node l r hnode => ⟨fun d m' hd => ?_, ?_⟩, fun node e hnode d m' => ?_⟩
  · obtain ⟨x, m₁, y, v, hx, hy, -⟩ := (Operator.ends_iff hst hnode).1 hd
    exact ⟨x, m₁, y, hx, hy⟩
  · intro x m₁ y m' a b hx hy ha hb
    have whole : op ≠ .divide := by
      rintro rfl
      simp [Operator.arithmetic] at hop
    have happly := op.apply_int whole a b
    rw [← ha, ← hb] at happly
    have hends : Ends st mode node m (.ok (.normal (.int (op.onIntegers whole a b)))) m' :=
      (Operator.ends_iff hst hnode).2 ⟨x, m₁, y, _, hx, hy, happly, rfl⟩
    refine ⟨_, fun result m₂ => hends.iff_eq, Operator.onIntegers_ne_zero_iff whole a b hop, ?_,
      ?_, ?_⟩
    · intro hselecting
      exact Operator.onIntegers_of_comparison whole a b (by simp [hop, hselecting])
    · rintro rfl
      rfl
    · rintro rfl
      by_cases hzero : a = 0 <;> simp [Operator.onIntegers, hzero]
  · have hinvert : ∀ v : Value, Operation.invert v = .int (if v.truthy then 0 else 1) := by
      intro v
      cases hv : v.truthy <;> simp [Operation.invert, Value.ofTruth, hv]
    simp only [hnode.ends_iff hst, hinvert]

/-- The text `2&&3` comes to 3, and `2||0` to 2. -/
theorem conjunction_gives_operand :
    let two : Expression := .number (.int 2)
    let both : Expression := .binary .and two (.number (.int 3))
    let either : Expression := .binary .or two (.number (.int 0))
    let m : Machine := ⟨.record [], ""⟩
    Program.tree .booleans "2&&3" = .ok (both.tree .booleans) ∧
      Ends .booleans .statement (both.tree .booleans) m (.ok (.normal (.int 3))) m ∧
      Program.tree .returns "2||0" = .ok (either.tree .returns) ∧
      Ends .returns .statement (either.tree .returns) m (.ok (.normal (.int 2))) m :=
  ⟨rfl, ⟨by simp, 9, rfl⟩, rfl, ⟨by simp, 9, rfl⟩⟩

/-- With `k` and `w` bound to -5 and 7, `k&&w` comes to 7, and so it holds; `!k` comes to 0. -/
theorem truth_operators_on_integers_of_names :
    let k : Tree := Identifier.tree .scopes ⟨"k", by decide⟩
    let w : Tree := Identifier.tree .scopes ⟨"w", by decide⟩
    let m : Machine := ⟨.record [("k", .int (-5)), ("w", .int 7)], ""⟩
    (∀ result m₂, Ends .scopes .statement (Tree.binary .scopes "&&" k w) m result m₂ ↔
      result = .ok (.normal (.int 7)) ∧ m₂ = m) ∧
    Operator.holds .and (-5) 7 = true ∧
    Ends .scopes .statement (Tree.unary .scopes "not" k) m (.ok (.normal (.int 0))) m := by
  intro k w m
  have hk : Ends .scopes .statement k m (.ok (.normal (.int (-5)))) m := ⟨by simp, 9, rfl⟩
  have hw : Ends .scopes .statement w m (.ok (.normal (.int 7))) m := ⟨by simp, 9, rfl⟩
  have hstage : Stage.has .scopes .booleans = true := rfl
  obtain ⟨hoperators, hnot⟩ := truth_operators_on_integers hstage .statement m
  obtain ⟨v, hends, htruth, -, hand, -⟩ := (hoperators .and (by decide) _ _ _
    (Operator.joins_binary .scopes .and k w)).2 _ m _ m (-5) 7 hk hw rfl rfl
  obtain rfl : v = 7 := hand rfl
  exact ⟨hends, htruth.1 (by decide),
    (hnot _ _ (Tree.inverts_unary .scopes k) _ _).2 ⟨_, hk, rfl⟩⟩

end Stepwise
