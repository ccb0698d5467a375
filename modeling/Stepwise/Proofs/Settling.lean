import Stepwise.Proofs.Elementary
import Stepwise.Proofs.ParserBudget

/-!
# Elementary expressions come to an end

Only what is nested inside a node and repeated by a loop takes from the budget, so an
expression without calls, and an assignment of one, is done with enough of it: with a value or
with a fault of its own, never with that of an empty budget.

- `*_decided`: operators and the look-up of names do not fail for want of budget;
- `Action.Settles`: nor does the action, on any machine;
- `expression_settles`, `assign_settles`: the budget that suffices does so on every machine.
-/

namespace Stepwise

open Rule (Concludes)

/-! ## Operators and names -/

/-- The computation fails for a reason of its own, if at all. -/
abbrev Decided {α : Type} (x : Except Fault α) : Prop := Concludes (fun _ => True) x

namespace Numeric

/-- An integer too large for a double is a fault of its own. -/
theorem toFloat_decided (a : Numeric) : Decided a.toFloat := by
  cases a with
  | float x => exact .pure trivial
  | int n =>
    simp only [toFloat]
    split
    · exact .pure trivial
    · exact .error Fault.noConfusion

theorem combine_decided (onInts : Int → Int → Int) (onFloats : Float → Float → Float)
    (a b : Numeric) : Decided (combine onInts onFloats a b) := by
  unfold combine
  split
  · exact .pure trivial
  · exact (toFloat_decided a).bind fun _ _ => (toFloat_decided b).bind fun _ _ => .pure trivial

/-- Division by zero is a fault of its own. -/
theorem divide_decided (a b : Numeric) : Decided (divide a b) := by
  unfold divide
  split
  · split
    · exact .pure trivial
    · exact .error Fault.noConfusion
  · exact (toFloat_decided a).bind fun _ _ => (toFloat_decided b).bind fun _ _ => .pure trivial

end Numeric

namespace Value

/-- Operands that are no numbers are a fault of their own. -/
theorem onNumbers_decided {op : Numeric → Numeric → Except Fault Value}
    (h : ∀ x y, Decided (op x y)) (a b : Value) : Decided (onNumbers op a b) := by
  unfold onNumbers
  split
  · exact h _ _
  · exact .error Fault.noConfusion

theorem add_decided (a b : Value) : Decided (add a b) := by
  unfold add
  split
  · exact .pure trivial
  · exact .pure trivial
  · exact onNumbers_decided (Numeric.combine_decided _ _) _ _

theorem repeated_decided (count : Int) (v : Value) : Decided (v.repeated count) := by
  cases v with
  | text | list => exact .pure trivial
  | null | bool | int | float | record => exact .error Fault.noConfusion

theorem multiply_decided (a b : Value) : Decided (multiply a b) := by
  unfold multiply
  split
  · exact Numeric.combine_decided _ _ _ _
  · exact repeated_decided _ _
  · exact repeated_decided _ _
  · exact .error Fault.noConfusion

theorem negate_decided (a : Value) : Decided a.negate := by
  unfold negate
  split
  · exact .pure trivial
  · exact .pure trivial
  · exact .error Fault.noConfusion

mutual

/-- Comparing values may fail for their types. The two lemmas are mutual, as lists are compared item
by item. -/
theorem relate_decided (r : Relation) (a b : Value) : Decided (relate r a b) := by
  unfold relate
  split
  · exact .pure trivial
  · exact relateItems_decided r _ _
  · split
    · exact .pure trivial
    · exact .error Fault.noConfusion

theorem relateItems_decided (r : Relation) (as bs : List Value) :
    Decided (relateItems r as bs) := by
  unfold relateItems
  split
  · exact .pure trivial
  · exact .pure trivial
  · exact .pure trivial
  · exact .ite (relateItems_decided r _ _) (relate_decided r _ _)

end

theorem toInteger_decided (a : Value) : Decided a.toInteger := by
  cases a with
  | bool | int => exact .pure trivial
  | null | list | record => exact .error Fault.noConfusion
  | float x =>
    simp only [toInteger]
    split
    · exact .pure trivial
    · split
      · exact .error Fault.noConfusion
      · exact .error Fault.noConfusion
  | text s =>
    exact .ite (.error Fault.noConfusion) (.ite (.error Fault.noConfusion) (.pure trivial))

end Value

/-- **No operator fails for want of budget.** -/
theorem Operator.apply_decided (op : Operator) (a b : Value) : Decided (op.apply a b) := by
  have relation : ∀ r, Decided (Operation.relation r a b) :=
    fun r => (Value.relate_decided r a b).bind fun _ _ => .pure trivial
  cases op with
  | plus => exact Value.add_decided a b
  | minus => exact Value.onNumbers_decided (Numeric.combine_decided _ _) a b
  | times => exact Value.multiply_decided a b
  | divide =>
    exact .ite (.error Fault.noConfusion) (Value.onNumbers_decided Numeric.divide_decided a b)
  | less | greater | lessEqual | greaterEqual => exact relation _
  | equal | unequal => exact .pure trivial
  | and | or => exact (Value.toInteger_decided _).bind fun _ _ => .pure trivial

namespace Name

theorem isIn_decided (name : String) (env : Value) : Decided (isIn name env) := by
  cases env with
  | record | text | list => exact .pure trivial
  | null | bool | int | float => exact .error Fault.noConfusion

theorem field_decided (name : String) (env : Value) : Decided (env.field name) :=
  Rule.field_concludes name env

mutual

/-- Looking up a name goes from frame to frame, each inside the one before. -/
theorem resolve_decided (name : String) : ∀ env : Value, Decided (resolve name env)
  | .record fields => by
    rw [resolve]
    split
    · exact .pure trivial
    · exact resolveParent_decided name fields
  | .null | .bool _ | .int _ | .float _ | .text _ | .list _ => by
    rw [resolve]
    · exact .ite (.error Fault.noConfusion) ((isIn_decided name _).bind fun _ _ =>
        .ite (field_decided name _) (.error Fault.noConfusion))
    · simp

theorem resolveParent_decided (name : String) :
    ∀ fields : Fields, Decided (resolveParent name fields)
  | [] => .error Fault.noConfusion
  | (key, v) :: rest => by
    rw [resolveParent]
    exact .ite (resolve_decided name v) (resolveParent_decided name rest)

end

/-- **No look-up fails for want of budget**, at any stage. -/
theorem seek_decided (st : Stage) (name : String) (env : Value) : Decided (seek st name env) :=
  .ite (resolve_decided name env) ((isIn_decided name env).bind fun _ _ =>
    .ite (field_decided name env) (.error Fault.noConfusion))

end Name

/-! ## Actions -/

namespace Action

variable {α β : Type}

/-- The action does not run out of budget, on whatever machine. -/
def Settles (x : Action α) : Prop :=
  ∀ m, Decided (x m).1

namespace Settles

theorem pure (a : α) : Settles (pure a) := fun _ => .pure trivial

theorem lift {x : Except Fault α} (h : Decided x) : Settles (liftM x) := fun _ => h

theorem environment : Settles Action.environment := fun _ => .pure trivial

/-- If both parts settle, one after the other does. -/
theorem bind {x : Action α} {f : α → Action β} (hx : Settles x) (hf : ∀ a, Settles (f a)) :
    Settles (x >>= f) := by
  intro m
  have hm := hx m
  cases hxm : x m with
  | mk r m₁ =>
    rw [hxm] at hm
    cases r with
    | ok a =>
      rw [bind_ok f hxm]
      exact hf a m₁
    | error e =>
      rw [bind_error f hxm]
      exact hm

theorem assign (x : String) (v : Value) : Settles (Action.assign (.text x) v) := by
  refine bind environment fun env => ?_
  cases env with
  | record => exact bind (lift (.pure trivial)) fun _ _ => .pure trivial
  | null | bool | int | float | text | list => exact lift (.error Fault.noConfusion)

/-- An action that settles with some budget reaches what it gives then. -/
theorem reaches {x : Nat → Action α} {n : Nat} (h : Settles (x n)) (m : Machine) :
    Reaches x m (x n m).1 (x n m).2 :=
  ⟨(h m).ne_exhausted, n, rfl⟩

end Settles

end Action

open Action (Settles)

section Elementary

variable {st : Stage} (hst : st.has .booleans = true)

include hst

/-- **An elementary expression without truth values comes to an end.** -/
theorem expression_settles : ∀ {e : Expression}, e.elementary false = true →
    ∃ least, ∀ n, least ≤ n → ∀ mode, Settles (evaluate st n mode (e.tree st))
  | .number v, _ => by
    refine ⟨1, fun n hn mode => ?_⟩
    obtain ⟨k, rfl⟩ := Nat.exists_eq_add_of_le' hn
    rw [evaluate_number]
    exact .pure _
  | .name x, _ => by
    have hassignments : st.has .assignments = true := Stage.has_of_rank_le hst (by decide)
    refine ⟨1, fun n hn mode => ?_⟩
    obtain ⟨k, rfl⟩ := Nat.exists_eq_add_of_le' hn
    rw [evaluate_name k mode hassignments]
    exact .bind .environment fun env => .bind (.lift (Name.seek_decided st x.text env)) fun v =>
      .pure _
  | .negate e, he => by
    obtain ⟨least, h⟩ := expression_settles (e := e) he
    refine ⟨least + 1, fun n hn mode => ?_⟩
    obtain ⟨k, rfl⟩ : ∃ k, n = k + 1 := ⟨n - 1, by omega⟩
    rw [evaluate_negate k mode hst]
    refine .bind (.bind (h k (by omega) .statement) fun c => .pure _) fun v => ?_
    exact .bind (.lift v.negate_decided) fun w => .pure _
  | .not e, he => by
    obtain ⟨least, h⟩ := expression_settles (e := e) he
    refine ⟨least + 1, fun n hn mode => ?_⟩
    obtain ⟨k, rfl⟩ : ∃ k, n = k + 1 := ⟨n - 1, by omega⟩
    rw [evaluate_not k mode hst]
    exact .bind (.bind (h k (by omega) .statement) fun c => .pure _) fun v => .pure _
  | .binary op l r, he => by
    simp only [Expression.elementary, Bool.and_eq_true] at he
    obtain ⟨least, hl⟩ := expression_settles he.1
    obtain ⟨least', hr⟩ := expression_settles he.2
    -- the node takes one unit, and each operand has all of the rest
    refine ⟨max least least' + 1, fun n hn mode => ?_⟩
    obtain ⟨k, rfl⟩ : ∃ k, n = k + 1 := ⟨n - 1, by omega⟩
    rw [evaluate_binary k mode hst]
    refine .bind (.bind (hl k (by omega) .statement) fun c => .pure _) fun a => ?_
    refine .bind (.bind (hr k (by omega) .statement) fun c => .pure _) fun b => ?_
    exact .bind (.lift (op.apply_decided a b)) fun v => .pure _
  | .boolean _, he | .call _ _, he | .function _ _, he => by cases he

/-- **An assignment of an elementary expression comes to an end.** -/
theorem assign_settles {x : Identifier} {e : Expression} (he : e.elementary false = true) :
    ∃ n, Settles (evaluate st n .statement ((Statement.assign x e).tree st)) := by
  have hassignments : st.has .assignments = true := Stage.has_of_rank_le hst (by decide)
  obtain ⟨least, h⟩ := expression_settles hst he
  refine ⟨least + 1, ?_⟩
  rw [evaluate_assign least hassignments]
  exact .bind (h least (Nat.le_refl _) .expression) fun c =>
    .bind (.assign x.text c.value) fun _ => .pure _

end Elementary

end Stepwise
