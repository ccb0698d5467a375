import Stepwise.Proofs.Nodes
import Stepwise.Proofs.Related

/-!
# Elementary programs at every stage

Numbers, names, operators, assignments, blocks, `if` and `while` mean the same at
every stage that has them; what differs is how a node keeps its parts, and how a
name is looked up. So the evaluators are compared on syntax, not on records:
`evaluate_*` says, with one equation for each kind of elementary syntax, what
every stage does with it.

- `Expression.elementary truths`, `Statement.elementary truths`: no functions, no
  calls, no `return` and no `print`. `truths` says whether truth values are let
  pass, which no evaluator knows;
- `Action.Quiet`: the action never returns from a function. Up to `functions` no
  evaluator does (`evaluate_quiet`), so that blocks, which stop where a part
  returns, are described by the same equation everywhere;
- `Action.Agree P x y`: the two actions do the same in every environment with the
  property `P`, and keep the property;
- `expression_agree`, `assign_agree`, `statement_agree`: two stages agree on elementary
  programs as soon as they look names up alike.
-/

namespace Stepwise

/-! ## Elementary syntax -/

/-- The expression is made of numbers, names and operators. -/
def Expression.elementary (truths : Bool) : Expression → Bool
  | .number _ | .name _ => true
  | .boolean _ => truths
  | .negate e | .not e => e.elementary truths
  | .binary _ l r => l.elementary truths && r.elementary truths
  | .call _ _ | .function _ _ => false

mutual

/-- The statement is made of blocks, `if`, `while` and assignments, and its expressions are
elementary. -/
def Statement.elementary (truths : Bool) : Statement → Bool
  | .block ss => Statement.allElementary truths ss
  | .branch c s none => c.elementary truths && s.elementary truths
  | .branch c s (some a) => c.elementary truths && s.elementary truths && a.elementary truths
  | .loop c s => c.elementary truths && s.elementary truths
  | .assign _ e | .expression e => e.elementary truths
  | .giveBack _ | .print _ => false

/-- All of the statements are elementary. -/
def Statement.allElementary (truths : Bool) : List Statement → Bool
  | [] => true
  | s :: ss => s.elementary truths && Statement.allElementary truths ss

end

/-- How a stage looks a name up: in one record up to `blocks`, in a chain of frames later. -/
def Name.seek (st : Stage) (name : String) (env : Value) : Except Fault Value :=
  if st.has .scopes then Name.resolve name env else Name.find name env

/-! ## Actions that never return from a function -/

namespace Action

/-- A result that is there already is just handed on. -/
@[simp] theorem liftM_ok_bind {α β : Type} (a : α) (f : α → Action β) :
    ((liftM (Except.ok a : Except Fault α) : Action α) >>= f) = f a := rfl

/-- The action completes without returning, if it completes. -/
def Quiet (x : Action Completion) : Prop :=
  ∀ m, Yields (fun c => c.returning = false) (x m).1

namespace Quiet

theorem throw (e : Fault) : Quiet (throw e) := fun _ => .error e

theorem normal (v : Value) : Quiet (pure (.normal v)) := fun _ => .pure rfl

/-- What comes last decides: whatever goes before, a quiet end is quiet. -/
theorem bind {α : Type} {x : Action α} {f : α → Action Completion} (h : ∀ a, Quiet (f a)) :
    Quiet (x >>= f) := by
  intro m
  cases hx : x m with
  | mk r m₁ =>
    cases r with
    | ok a =>
      rw [bind_ok f hx]
      exact h a m₁
    | error e =>
      rw [bind_error f hx]
      exact .error e

theorem ite {c : Prop} [Decidable c] {x y : Action Completion} (hx : Quiet x) (hy : Quiet y) :
    Quiet (if c then x else y) := by
  split
  · exact hx
  · exact hy

/-- A loop with a quiet body is quiet: every round ends normally, and so the next one follows. -/
theorem repeatWhile (condition : Action Completion) {body : Action Completion} (h : Quiet body)
    (n : Nat) : Quiet (Node.repeatWhile condition body n) := by
  induction n with
  | zero => exact throw _
  | succ n ih =>
    refine bind fun c => ite ?_ (normal _)
    intro m
    cases hbody : body m with
    | mk r m₁ =>
      cases r with
      | ok done =>
        -- the body does not return, so the loop goes on
        have hdone : done.returning = false := by
          have hm := h m
          rw [hbody] at hm
          exact hm done rfl
        rw [bind_ok _ hbody]
        simpa [hdone] using ih m₁
      | error e =>
        rw [bind_error _ hbody]
        exact .error e

/-- What follows an action that does not return need not look whether it does. -/
theorem bind_congr {β : Type} {x : Action Completion} {f g : Completion → Action β}
    (h : Quiet x) (hfg : ∀ c, c.returning = false → f c = g c) : (x >>= f) = (x >>= g) := by
  funext m
  have hm := h m
  cases hx : x m with
  | mk r m₁ =>
    cases r with
    | ok c =>
      rw [hx] at hm
      rw [bind_ok f hx, bind_ok g hx, hfg c (hm c rfl)]
    | error e => rw [bind_error f hx, bind_error g hx]

/-- What does not return has nothing to pass on. -/
theorem passOn {x : Action Completion} (h : Quiet x) :
    (do return Returning.passOn (← x)) = (do let _ ← x; return .normal .null) := by
  refine h.bind_congr fun c hc => ?_
  simp [Returning.passOn, hc]

end Quiet

end Action

open Action (Quiet)

/-- Stages without control flow never return. -/
theorem Plain.step_quiet (st : Stage) (part : Evaluator) (mode : Mode) (t : Tree) :
    Quiet (Plain.step st part mode t) := by
  cases mode with
  | statement => exact .bind fun v => .normal v
  | expression => exact .bind fun v => .normal v

/-- Nor do those with control flow, if the parts do not. -/
theorem Structured.step_quiet (st : Stage) {part : Evaluator}
    (h : ∀ mode t, Quiet (part mode t)) (n : Nat) (mode : Mode) (t : Tree) :
    Quiet (Structured.step st part n mode t) := by
  cases mode with
  | expression => exact .bind fun v => .normal v
  | statement =>
    refine .bind fun tag => .ite ?_ (.ite ?_ (.ite ?_ (.ite ?_ (.ite ?_ ?_))))
    · exact .bind fun _ => .normal _
    · exact .bind fun _ => .normal _
    · exact .bind fun _ => .normal _
    · -- of all statements only a loop passes on what its body completes with
      exact .bind fun c => .repeatWhile _ (.bind fun s => h .statement s) n
    · exact .bind fun _ => .bind fun _ => .normal _
    · exact .bind fun v => .normal v

/-- **Before `returns` nothing returns.** -/
theorem evaluate_quiet {st : Stage} (hst : st.has .returns = false) (n : Nat) (mode : Mode)
    (t : Tree) : Quiet (evaluate st n mode t) := by
  induction n generalizing mode t with
  | zero => exact .throw _
  | succ n ih =>
    cases st with
    | expressions | assignments | booleans | conditions => exact Plain.step_quiet _ _ mode t
    | blocks | scopes | functions => exact Structured.step_quiet _ ih n mode t
    | returns => cases hst

/-- Only `returns` has an evaluator that returns. -/
theorem evaluate_quiet_of_ne {st : Stage} (hst : st ≠ .returns) (n : Nat) (mode : Mode) (t : Tree) :
    Quiet (evaluate st n mode t) := by
  refine evaluate_quiet ?_ n mode t
  cases st <;> first | rfl | exact absurd rfl hst

/-! ## Operators -/

namespace Operator

variable {st : Stage} {part : Evaluator} {op : Operator} {node : Tree} {mode : Mode}

/-- A step at an operator applies it to both operands, at the first stages. -/
theorem plain_step (hfind : Operation.find? st (.text op.sign) = some op.apply)
    (htag : node.field "tag" = .ok (.text op.sign)) :
    Plain.step st part mode node = op.onOperands part node := by
  have hword := op.isText_sign
  simp only [List.forall_mem_cons] at hword
  have hexpression : Plain.expression st part node =
      Node.operands part node >>= fun p => liftM (op.apply p.1 p.2) := by
    simp [Plain.expression, htag, hword, Node.operatorAfter, hfind]
  cases mode with
  | statement => simp [Plain.step, Plain.statement, htag, hword, hexpression, onOperands]
  | expression => simp [Plain.step, hexpression, onOperands]

/-- A step at an operator applies it to both operands, at the stages with control flow. -/
theorem structured_step (hst : st.has .booleans = true)
    (htag : node.field "tag" = .ok (.text op.sign)) (n : Nat) :
    Structured.step st part n mode node = op.onOperands part node := by
  have hword := op.isText_sign
  simp only [List.forall_mem_cons] at hword
  -- it does not matter whether the operator is looked at before its operands or after them
  have hexpression : Structured.expression st part node =
      Node.operands part node >>= fun p => liftM (op.apply p.1 p.2) := by
    simp [Structured.expression, htag, hword, Node.operatorAfter, Node.operatorBefore,
      op.find?_sign hst]
  cases mode with
  | statement => simp [Structured.step, Structured.statement, htag, hword, hexpression, onOperands]
  | expression => simp [Structured.step, hexpression, onOperands]

/-- Every stage with comparisons treats its operators in the same way. -/
theorem evaluate_eq (hst : st.has .booleans = true)
    (htag : node.field "tag" = .ok (.text op.sign)) (n : Nat) :
    evaluate st (n + 1) mode node = op.onOperands (evaluate st n) node := by
  cases st with
  | expressions | assignments => cases hst
  | booleans | conditions => exact plain_step (op.find?_sign hst) htag
  | blocks | scopes | functions => exact structured_step hst htag n
  | returns => exact returning_step htag n

end Operator

/-! ## Expressions -/

section Expressions

variable {st : Stage} (n : Nat) (mode : Mode)

/-- The value of a tree that is read as a statement. -/
abbrev valueAt (st : Stage) (n : Nat) (t : Tree) : Action Value := do
  return (← evaluate st n .statement t).value

theorem evaluate_number (v : Numeric) :
    evaluate st (n + 1) mode ((Expression.number v).tree st) = pure (.normal v.value) := by
  cases st <;> cases mode <;> cases v <;> rfl

theorem evaluate_name (hst : st.has .assignments = true) (x : Identifier) :
    evaluate st (n + 1) mode ((Expression.name x).tree st) = do
      let env ← Action.environment
      return .normal (← Name.seek st x.text env) := by
  cases st <;> cases hst <;> cases mode <;> rfl

/-- A minus sign negates the value of its operand. -/
theorem evaluate_negate (hst : st.has .booleans = true) (e : Expression) :
    evaluate st (n + 1) mode ((Expression.negate e).tree st) = do
      return .normal (← (← valueAt st n (e.tree st)).negate) := by
  by_cases hr : st = .returns
  · subst hr
    rfl
  · have h : evaluate st (n + 1) mode ((Expression.negate e).tree st) =
        (valueAt st n (e.tree st) >>= fun v => liftM v.negate) >>= fun v => pure (.normal v) := by
      cases st <;> cases hst <;> cases mode <;> first | exact absurd rfl hr | rfl
    rw [h, bind_assoc]

/-- A negation inverts the value of its operand. -/
theorem evaluate_not (hst : st.has .booleans = true) (e : Expression) :
    evaluate st (n + 1) mode ((Expression.not e).tree st) = do
      return .normal (Operation.invert (← valueAt st n (e.tree st))) := by
  by_cases hr : st = .returns
  · subst hr
    rfl
  · have h : evaluate st (n + 1) mode ((Expression.not e).tree st) =
        (valueAt st n (e.tree st) >>= fun v => pure (Operation.invert v)) >>=
          fun v => pure (.normal v) := by
      cases st <;> cases hst <;> cases mode <;> first | exact absurd rfl hr | rfl
    rw [h, bind_assoc]
    rfl

/-- An operator is applied to the values of its operands, the left one first. -/
theorem evaluate_binary (hst : st.has .booleans = true) (op : Operator) (l r : Expression) :
    evaluate st (n + 1) mode ((Expression.binary op l r).tree st) = do
      let a ← valueAt st n (l.tree st)
      let b ← valueAt st n (r.tree st)
      return .normal (← op.apply a b) := by
  have htag : Value.field "tag" ((Expression.binary op l r).tree st) = .ok (.text op.sign) := by
    cases st <;> rfl
  have hoperands : Node.operands (evaluate st n) ((Expression.binary op l r).tree st) = do
      let a ← valueAt st n (l.tree st)
      let b ← valueAt st n (r.tree st)
      return (a, b) := by
    cases st <;> rfl
  rw [Operator.evaluate_eq hst htag, Operator.onOperands, hoperands]
  simp only [bind_assoc, pure_bind]

end Expressions

/-! ## Statements -/

section Statements

variable {st : Stage} (n : Nat)

/-- The tree of a statement never counts as absent. -/
theorem Statement.tree_truthy (st : Stage) (s : Statement) : Value.truthy (s.tree st) = true := by
  have hblock : ∀ ts : List Tree, Value.truthy (Tree.block ts) = true
    | [] | [_] | _ :: _ :: _ => rfl
  rcases s with ss | ⟨c, s, _ | a⟩ | ⟨c, s⟩ | _ | es | ⟨x, e⟩ | e
  · exact hblock _
  all_goals first | (cases st <;> rfl) | (cases e <;> cases st <;> rfl) | skip
  rename_i v
  cases v <;> rfl

/-- An assignment binds the name to the value and has no value itself. -/
theorem evaluate_assign (hst : st.has .assignments = true) (x : Identifier) (e : Expression) :
    evaluate st (n + 1) .statement ((Statement.assign x e).tree st) = do
      let c ← evaluate st n .expression (e.tree st)
      Action.assign (.text x.text) c.value
      return .normal .null := by
  have hplace : evaluate st (n + 1) .statement ((Statement.assign x e).tree st) =
      (if (!Value.truthy (e.tree st)) = true then throw .emptyAssignment
        else evaluate st n .expression (e.tree st) >>= fun c =>
          Action.assign (.text x.text) c.value) >>= fun _ => pure (.normal .null) := by
    by_cases hblocks : st.has .blocks = true
    · cases st <;> cases hblocks <;> rfl
    · -- before `blocks` a statement has a value, null, that becomes its completion
      simp only [← pure_bind Value.null fun v => (pure (.normal v) : Action Completion),
        ← bind_assoc]
      cases st <;> first | cases hst; done | exact absurd rfl hblocks | rfl
  have htruthy : Value.truthy (e.tree st) = true := (Statement.expression e).tree_truthy st
  rw [hplace]
  simp [htruthy]

/-- A block without statements has no field that an evaluator could read. -/
theorem evaluate_block_nil (hst : st.has .blocks = true) :
    evaluate st (n + 1) .statement (Tree.block []) = throw (.missingField "statement") := by
  cases st <;> cases hst <;> rfl

/-- The last statement of a block decides how the block ends. -/
theorem evaluate_block_one (hst : st.has .blocks = true) (t : Tree) :
    evaluate st (n + 1) .statement (Tree.block [t]) = do
      return Returning.passOn (← evaluate st n .statement t) := by
  by_cases hr : st = .returns
  · subst hr
    exact Returning.eval_block_one n t
  · have hquiet := evaluate_quiet_of_ne hr n .statement t
    have h : evaluate st (n + 1) .statement (Tree.block [t]) =
        (evaluate st n .statement t >>= fun _ => pure ()) >>= fun _ => pure (.normal .null) := by
      cases st <;> cases hst <;> first | exact absurd rfl hr | rfl
    rw [h, bind_assoc, hquiet.passOn]
    rfl

/-- A block runs its first statement and, unless that returned, the block of the others. -/
theorem evaluate_block_next (hst : st.has .blocks = true) (t u : Tree) (ts : List Tree) :
    evaluate st (n + 1) .statement (Tree.block (t :: u :: ts)) = do
      let first ← evaluate st n .statement t
      if first.returning then return Returning.passOn first
      else return Returning.passOn (← evaluate st n .statement (Tree.block (u :: ts))) := by
  by_cases hr : st = .returns
  · subst hr
    exact Returning.eval_block_next n t u ts
  -- before `returns` a block does not ask whether its first statement returned, and it never has
  · have hquiet := evaluate_quiet_of_ne hr n .statement
    have htruthy : Value.truthy (Tree.block (u :: ts)) = true := by
      cases ts <;> rfl
    have h : evaluate st (n + 1) .statement (Tree.block (t :: u :: ts)) =
        (evaluate st n .statement t >>= fun _ =>
          if Value.truthy (Tree.block (u :: ts)) = true then
            evaluate st n .statement (Tree.block (u :: ts)) >>= fun _ => pure ()
          else pure ()) >>= fun _ => pure (.normal .null) := by
      cases st <;> cases hst <;> first | exact absurd rfl hr | rfl
    rw [h, bind_assoc]
    refine (hquiet t).bind_congr fun first hfirst => ?_
    simp only [htruthy, hfirst, if_true, Bool.false_eq_true, if_false, bind_assoc, pure_bind,
      (hquiet _).passOn]

/-- An `if` without an alternative runs its statement or does nothing. -/
theorem evaluate_branch_none (hst : st.has .blocks = true) (c t : Tree) :
    evaluate st (n + 1) .statement (Tree.branch st c t none) = do
      if (← evaluate st n .expression c).value.truthy then
        return Returning.passOn (← evaluate st n .statement t)
      else return .normal .null := by
  by_cases hr : st = .returns
  · subst hr
    refine (Returning.eval_branch_none n c t).trans ?_
    simp [Returning.valueOf, Returning.evaluate_mode]
  -- before `returns` the completion of the statement is dropped, as `passOn` drops a quiet one
  · have hquiet := evaluate_quiet_of_ne hr n .statement
    have h : evaluate st (n + 1) .statement (Tree.branch st c t none) =
        (evaluate st n .expression c >>= fun v =>
          if v.value.truthy = true then evaluate st n .statement t >>= fun _ => pure ()
          else pure ()) >>= fun _ => pure (.normal .null) := by
      cases st <;> cases hst <;> first | exact absurd rfl hr | rfl
    rw [h, bind_assoc]
    refine bind_congr fun v => ?_
    by_cases hv : v.value.truthy = true
    · simp only [hv, if_true, bind_assoc, pure_bind, (hquiet t).passOn]
    · simp [hv]

/-- An `if` with an alternative runs one of the two. -/
theorem evaluate_branch_some (hst : st.has .blocks = true) (c t a : Tree)
    (ha : Value.truthy a = true) :
    evaluate st (n + 1) .statement (Tree.branch st c t (some a)) = do
      if (← evaluate st n .expression c).value.truthy then
        return Returning.passOn (← evaluate st n .statement t)
      else return Returning.passOn (← evaluate st n .statement a) := by
  by_cases hr : st = .returns
  · subst hr
    refine (Returning.eval_branch_some n c t a).trans ?_
    simp [Returning.valueOf, Returning.evaluate_mode, ha]
  -- as without an alternative
  · have hquiet := evaluate_quiet_of_ne hr n .statement
    have h : evaluate st (n + 1) .statement (Tree.branch st c t (some a)) =
        (evaluate st n .expression c >>= fun v =>
          if v.value.truthy = true then evaluate st n .statement t >>= fun _ => pure ()
          else if Value.truthy a = true then evaluate st n .statement a >>= fun _ => pure ()
          else pure ()) >>= fun _ => pure (.normal .null) := by
      cases st <;> cases hst <;> first | exact absurd rfl hr | rfl
    rw [h, bind_assoc]
    refine bind_congr fun v => ?_
    by_cases hv : v.value.truthy = true
    · simp only [hv, if_true, bind_assoc, pure_bind, (hquiet t).passOn]
    · simp only [hv, ha, if_true, if_false, bind_assoc, pure_bind, Bool.false_eq_true,
        (hquiet a).passOn]

/-- A loop repeats its body while the condition holds, with its own budget of rounds. -/
theorem evaluate_loop (hst : st.has .blocks = true) (c t : Tree) :
    evaluate st (n + 1) .statement (Tree.loop st c t) =
      Node.repeatWhile (evaluate st n .expression c) (evaluate st n .statement t) n := by
  by_cases hr : st = .returns
  · subst hr
    rw [Returning.evaluate_mode n .expression]
    exact Returning.eval_loop n c t
  · cases st <;> cases hst <;> first | exact absurd rfl hr | rfl

end Statements

/-! ## Stages that agree -/

/-- The same machine, with the property in its environment. -/
def Machine.Same (P : Value → Prop) (m m' : Machine) : Prop :=
  m' = m ∧ P m.environment

namespace Action

variable {α : Type} {P : Value → Prop} {x y : Action α}

/-- Wherever the environment has the property, `y` does what `x` does, and the property is kept. -/
abbrev Agree (P : Value → Prop) (x y : Action α) : Prop :=
  Related (Machine.Same P) (fun _ => True) x y

namespace Agree

/-- Two actions that do the same, and keep the property, agree. -/
theorem of_eq (h : ∀ m, P m.environment → y m = x m ∧ P (x m).2.environment) : Agree P x y := by
  rintro _ m ⟨rfl, hm⟩
  obtain ⟨hsame, hkept⟩ := h m hm
  rw [hsame]
  exact ⟨rfl, ⟨rfl, hkept⟩, fun _ _ => trivial⟩

theorem result (h : Agree P x y) (m : Machine) (hm : P m.environment) :
    y m = x m ∧ P (x m).2.environment := by
  obtain ⟨hsame, ⟨hmachine, hkept⟩, -⟩ := h m m ⟨rfl, hm⟩
  exact ⟨Prod.ext hsame hmachine, hkept⟩

/-- What is looked up in the environment may be looked up in two ways. -/
theorem environment {f g : Value → Action α} (h : ∀ env, P env → Agree P (f env) (g env)) :
    Agree P (Action.environment >>= f) (Action.environment >>= g) := by
  rintro _ m ⟨rfl, hm⟩
  exact h m.environment hm m m ⟨rfl, hm⟩

end Agree

end Action

open Action (Agree)

/-- What makes two stages agree: names are looked up alike wherever the environment has the
property `P`, which no assignment takes from it, and so are truth values, if there are any. -/
structure Stage.Alike (P : Value → Prop) (truths : Bool) (st st' : Stage) : Prop where
  booleans : st.has .booleans = true ∧ st'.has .booleans = true
  lookup : ∀ (x : Identifier) (env : Value), P env →
    Name.seek st' x.text env = Name.seek st x.text env
  assign : ∀ (x : Identifier) (v : Value) (m : Machine), P m.environment →
    P (Action.assign (.text x.text) v m).2.environment
  truth : truths = true → ∀ (n : Nat) (mode : Mode) (b : Bool),
    Agree P (evaluate st n mode ((Expression.boolean b).tree st))
      (evaluate st' n mode ((Expression.boolean b).tree st'))

section Agreement

variable {P : Value → Prop} {truths : Bool} {st st' : Stage} (h : Stage.Alike P truths st st')

include h

/-- Stages that are alike both have names. -/
theorem Stage.Alike.assignments :
    st.has .assignments = true ∧ st'.has .assignments = true := by
  obtain ⟨hst, hst'⟩ := h.booleans
  constructor
  · exact Stage.has_of_rank_le hst (by decide)
  · exact Stage.has_of_rank_le hst' (by decide)

/-- **Elementary expressions** mean the same at two stages that look names up alike. -/
theorem expression_agree {e : Expression} (he : e.elementary truths = true) (n : Nat)
    (mode : Mode) :
    Agree P (evaluate st n mode (e.tree st)) (evaluate st' n mode (e.tree st')) := by
  obtain ⟨hst, hst'⟩ := h.booleans
  induction n generalizing e mode with
  | zero => exact .throw _
  | succ n ih =>
    -- an operand is evaluated as a statement, and only its value counts
    have hvalue : ∀ {e : Expression}, e.elementary truths = true →
        Agree P (valueAt st n (e.tree st)) (valueAt st' n (e.tree st')) :=
      fun he => (ih he .statement).bind fun _ _ => .pure trivial
    cases e with
    | number v =>
      rw [evaluate_number, evaluate_number]
      exact .pure trivial
    | boolean b => exact h.truth he (n + 1) mode b
    | name x =>
      rw [evaluate_name n mode h.assignments.1, evaluate_name n mode h.assignments.2]
      refine .environment fun env henv => ?_
      rw [h.lookup x env henv]
      exact .liftBind fun _ _ => .pure trivial
    | negate e =>
      rw [evaluate_negate n mode hst, evaluate_negate n mode hst']
      exact (hvalue (e := e) he).bind fun _ _ => .liftBind fun _ _ => .pure trivial
    | not e =>
      rw [evaluate_not n mode hst, evaluate_not n mode hst']
      exact (hvalue (e := e) he).bind fun _ _ => .pure trivial
    | binary op l r =>
      simp only [Expression.elementary, Bool.and_eq_true] at he
      rw [evaluate_binary n mode hst, evaluate_binary n mode hst']
      exact (hvalue he.1).bind fun _ _ => (hvalue he.2).bind fun _ _ =>
        .liftBind fun _ _ => .pure trivial
    | call f args => cases he
    | function ps body => cases he

/-- **Assignments** mean the same at two stages that look names up alike. -/
theorem assign_agree {x : Identifier} {e : Expression} (he : e.elementary truths = true) (n : Nat) :
    Agree P (evaluate st n .statement ((Statement.assign x e).tree st))
      (evaluate st' n .statement ((Statement.assign x e).tree st')) := by
  cases n with
  | zero => exact .throw _
  | succ n =>
    rw [evaluate_assign n h.assignments.1, evaluate_assign n h.assignments.2]
    refine (expression_agree h he n .expression).bind fun c _ => ?_
    have hassign : Agree P (Action.assign (.text x.text) c.value)
        (Action.assign (.text x.text) c.value) := .of_eq fun m hm => ⟨rfl, h.assign x c.value m hm⟩
    exact hassign.bind fun _ _ => .pure trivial

/-- **Elementary statements** mean the same, too, where both stages evaluate blocks. -/
theorem statement_agree (hb : st.has .blocks = true) (hb' : st'.has .blocks = true)
    {s : Statement} (hs : s.elementary truths = true) (n : Nat) :
    Agree P (evaluate st n .statement (s.tree st)) (evaluate st' n .statement (s.tree st')) := by
  induction n generalizing s with
  | zero => exact .throw _
  | succ n ih =>
    -- a part of a block or branch is passed on alike
    have hpassed : ∀ {s : Statement}, s.elementary truths = true →
        Agree P (do return Returning.passOn (← evaluate st n .statement (s.tree st)))
          (do return Returning.passOn (← evaluate st' n .statement (s.tree st'))) :=
      fun hs => (ih hs).bind fun _ _ => .pure trivial
    have hcondition := fun {e : Expression} (he : e.elementary truths = true) =>
      expression_agree h he n .expression
    match s with
    | .block [] =>
      simp only [Statement.tree, Statement.trees]
      rw [evaluate_block_nil n hb, evaluate_block_nil n hb']
      exact .throw _
    | .block [s] =>
      simp only [Statement.elementary, Statement.allElementary, Bool.and_true] at hs
      simp only [Statement.tree, Statement.trees]
      rw [evaluate_block_one n hb, evaluate_block_one n hb']
      exact hpassed hs
    | .block (s :: u :: ss) =>
      -- what stands behind the first statement is a block of its own
      simp only [Statement.elementary, Statement.allElementary, Bool.and_eq_true] at hs
      have hrest : (Statement.block (u :: ss)).elementary truths = true := by
        simpa [Statement.elementary, Statement.allElementary] using hs.2
      have hblock := hpassed hrest
      simp only [Statement.tree, Statement.trees] at hblock ⊢
      rw [evaluate_block_next n hb, evaluate_block_next n hb']
      exact (ih hs.1).bind fun _ _ => .ite (fun _ => .pure trivial) fun _ => hblock
    | .branch c s none =>
      simp only [Statement.elementary, Bool.and_eq_true] at hs
      simp only [Statement.tree]
      rw [evaluate_branch_none n hb, evaluate_branch_none n hb']
      exact (hcondition hs.1).bind fun _ _ => .ite (fun _ => hpassed hs.2) fun _ => .pure trivial
    | .branch c s (some a) =>
      simp only [Statement.elementary, Bool.and_eq_true] at hs
      simp only [Statement.tree]
      rw [evaluate_branch_some n hb _ _ _ (a.tree_truthy st),
        evaluate_branch_some n hb' _ _ _ (a.tree_truthy st')]
      exact (hcondition hs.1.1).bind fun _ _ => .ite (fun _ => hpassed hs.1.2) fun _ => hpassed hs.2
    | .loop c s =>
      simp only [Statement.elementary, Bool.and_eq_true] at hs
      simp only [Statement.tree]
      rw [evaluate_loop n hb, evaluate_loop n hb']
      exact .repeatWhile (hcondition hs.1) (ih hs.2) trivial n
    | .assign x e => exact assign_agree h hs (n + 1)
    | .expression e => exact expression_agree h hs (n + 1) .statement
    | .giveBack _ | .print _ => cases hs

end Agreement

end Stepwise
