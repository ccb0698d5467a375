import Stepwise.Program
import Stepwise.Proofs.Action

/-!
# Budgets

The evaluator's budget decides only whether a run ends, never how: a run that
does not run out of one budget is the same with every larger one
(`evaluate_extends`). So a tree has at most one outcome, whatever the budget.

- `Evaluator.Extends`: the order of evaluators by budget. Every step of every
  stage respects it, one lemma for each function of the evaluators;
- `Ends st mode t m r m'`: with enough budget, evaluating `t` on the machine `m`
  gives `r` and leaves `m'`.
-/

namespace Stepwise

open Stepwise.Action (Extends Growing Reaches)

/-- `part'` does what `part` does, wherever `part` does not run out of budget. -/
def Evaluator.Extends (part part' : Evaluator) : Prop :=
  ∀ mode t, Action.Extends (part mode t) (part' mode t)

variable {part part' : Evaluator}

/-! ## What all stages share -/

namespace Node

theorem operand_extends (h : part.Extends part') (node : Tree) (field : String) :
    Extends (operand part node field) (operand part' node field) :=
  .bind (.refl _) fun t => .bind (h .statement t) fun _ => .refl _

theorem operands_extends (h : part.Extends part') (node : Tree) :
    Extends (operands part node) (operands part' node) :=
  .bind (operand_extends h node _) fun _ => .bind (operand_extends h node _) fun _ => .refl _

theorem operatorAfter_extends (h : part.Extends part') (st : Stage) (tag : Value) (node : Tree) :
    Extends (operatorAfter part st tag node) (operatorAfter part' st tag node) :=
  .bind (operands_extends h node) fun _ => .refl _

theorem operatorBefore_extends (h : part.Extends part') (st : Stage) (tag : Value) (node : Tree) :
    Extends (operatorBefore part st tag node) (operatorBefore part' st tag node) := by
  unfold operatorBefore
  split
  · exact .bind (operands_extends h node) fun _ => .refl _
  · exact .refl _

/-- An assignment evaluates its source alone; the target's name is read off the tree. -/
theorem assignment_extends (h : part.Extends part') (nameTag target source : String)
    (node : Tree) :
    Extends (assignment part nameTag target source node)
      (assignment part' nameTag target source node) := by
  unfold assignment
  refine .bind (.refl _) fun place => .bind (.refl _) fun tag => .ite .throw_bind ?_
  refine .bind (.refl _) fun name => .bind (.refl _) fun expression => .ite .throw_bind ?_
  exact .bind (h .expression expression) fun _ => .refl _

/-- Both the parts of a loop and the number of its rounds may have a larger budget. -/
theorem repeatWhile_extends {condition condition' body body' : Action Completion}
    (hc : Extends condition condition') (hb : Extends body body') :
    ∀ {n k : Nat}, n ≤ k → Extends (repeatWhile condition body n) (repeatWhile condition' body' k)
  | 0, _, _ => .of_exhausted _
  | n + 1, k + 1, h => by
    unfold repeatWhile
    refine .bind hc fun c => .ite ?_ (.refl _)
    exact .bind hb fun done =>
      .ite (.refl _) (repeatWhile_extends hc hb (Nat.le_of_succ_le_succ h))

/-- One round of a loop, with what comes behind it. -/
def round (condition body again : Action Completion) : Action Completion := do
  if (← condition).value.truthy then
    let done ← body
    if done.returning then return done else again
  else return .normal .null

/-- A round of a loop, with its condition, its body and what follows. -/
theorem round_extends {c c' t t' again again' : Action Completion} (hc : Extends c c')
    (ht : Extends t t') (h : Extends again again') :
    Extends (round c t again) (round c' t' again') :=
  .bind hc fun _ => .ite (.bind ht fun _ => .ite (.refl _) h) (.refl _)

/-- **A loop is one round and then the loop.** Here `loop` may be any run with a budget for its
parts that is also the number of its rounds. -/
theorem repeatWhile_reaches {c t loop : Nat → Action Completion} (hc : Growing c) (ht : Growing t)
    (hloop : Growing loop) (hstep : ∀ n, loop (n + 1) = repeatWhile (c n) (t n) n) {m m' : Machine}
    {r : Except Fault Completion} :
    Reaches loop m r m' ↔ Reaches (fun n => round (c n) (t n) (loop n)) m r m' := by
  -- in either direction the rounds that are left have another budget than a loop evaluated
  -- anew: one step more of budget makes up for it
  rw [Reaches.succ_iff hloop]
  constructor
  · refine Reaches.of_extends (· + 1) fun n => ?_
    cases n with
    | zero =>
      rw [hstep]
      exact .of_exhausted _
    | succ n =>
      rw [hstep]
      exact round_extends (hc _ _ (Nat.le_succ _)) (ht _ _ (Nat.le_succ _))
        (repeatWhile_extends (.refl _) (.refl _) (Nat.le_succ n))
  · refine Reaches.of_extends (· + 1) fun n => ?_
    have again : Extends (loop n) (repeatWhile (c (n + 1)) (t (n + 1)) n) := by
      cases n with
      | zero =>
        -- without budget the loop gets to no round at all
        intro m hm
        rw [← hloop 0 1 (Nat.le_succ 0) m hm, hstep] at hm
        exact absurd rfl hm
      | succ n =>
        rw [hstep]
        exact repeatWhile_extends (hc _ _ (Nat.le_add_right n 2)) (ht _ _ (Nat.le_add_right n 2))
          (Nat.le_succ n)
    rw [hstep]
    exact round_extends (hc _ _ (Nat.le_succ n)) (ht _ _ (Nat.le_succ n)) again

/-- Printing a list evaluates one after the other, by induction on the list. -/
theorem printAll_extends (h : part.Extends part') :
    ∀ es : List Tree, Extends (printAll part es) (printAll part' es)
  | [] => .refl _
  | e :: rest => .bind (h .expression e) fun _ => .bind (.refl _) fun _ =>
      .bind (.refl _) fun _ => printAll_extends h rest

end Node

/-! ## The stages without control flow -/

namespace Plain

variable (st : Stage)

theorem expression_extends (h : part.Extends part') (node : Tree) :
    Extends (expression st part node) (expression st part' node) := by
  unfold expression
  refine .bind (.refl _) fun tag => .ite (.refl _) (.ite (.refl _) (.ite ?_ (.ite ?_ ?_)))
  · exact .bind (Node.operand_extends h node _) fun _ => .refl _
  · exact .bind (Node.operand_extends h node _) fun _ => .refl _
  · exact Node.operatorAfter_extends h st tag node

theorem statement_extends (h : part.Extends part') (node : Tree) :
    Extends (statement st part node) (statement st part' node) := by
  unfold statement
  refine .bind (.refl _) fun tag => .ite ?_ (expression_extends st h node)
  exact .bind (Node.assignment_extends h _ _ _ node) fun _ => .refl _

/-- **A step of a stage without control flow** respects the order. -/
theorem step_extends (h : part.Extends part') : Evaluator.Extends (step st part) (step st part')
  | .statement, node => .bind (statement_extends st h node) fun _ => .refl _
  | .expression, node => .bind (expression_extends st h node) fun _ => .refl _

end Plain

/-! ## The stages with control flow -/

namespace Structured

variable (st : Stage)

/-- Binding goes through parameters and arguments together, by induction on both. -/
theorem bindArguments_extends (h : part.Extends part') :
    ∀ (frame : Fields) (ps as : List Tree),
      Extends (bindArguments part frame ps as) (bindArguments part' frame ps as)
  | _, [], _ => .refl _
  | _, _ :: _, [] => .refl _
  | frame, p :: ps, a :: as => by
    unfold bindArguments
    refine .bind (.refl _) fun _ => .bind (.refl _) fun _ => .bind (.refl _) fun _ => ?_
    refine .bind (.refl _) fun _ => .bind (.refl _) fun name => .bind (.refl _) fun _ => ?_
    refine .bind (.refl _) fun _ => .bind (h .statement a) fun value => ?_
    exact .bind (.refl _) fun key => bindArguments_extends h _ ps as

/-- A call evaluates the callee, the arguments and the body, the last in a frame of its own. -/
theorem call_extends (h : part.Extends part') (node : Tree) :
    Extends (call part node) (call part' node) := by
  unfold call
  refine .bind (.refl _) fun callee => .bind (.refl _) fun arguments => ?_
  refine .bind (h .expression callee) fun f => .bind (.refl _) fun ⟨parameters, body⟩ => ?_
  refine .bind (bindArguments_extends h _ _ _) fun ⟨frame, unused⟩ => ?_
  refine .ite .throw_bind (.ite .throw_bind ?_)
  exact .bind (.refl _) fun caller =>
    .bind (.inFrame _ (h .statement body)) fun _ => .refl _

theorem expression_extends (h : part.Extends part') (node : Tree) :
    Extends (expression st part node) (expression st part' node) := by
  unfold expression
  refine .bind (.refl _) fun tag => .ite (.refl _) (.ite (.refl _) (.ite ?_ (.ite ?_ (.ite ?_ ?_))))
  · exact .bind (Node.operand_extends h node _) fun _ => .refl _
  · exact .bind (Node.operand_extends h node _) fun _ => .refl _
  · exact Node.operatorAfter_extends h st tag node
  · refine .ite (.refl _) (.ite (call_extends h node) (.ite (.refl _) ?_))
    exact Node.operatorBefore_extends h st tag node

theorem block_extends (h : part.Extends part') (node : Tree) :
    Extends (block part node) (block part' node) := by
  unfold block
  refine .bind (.refl _) fun s => .bind (h .statement s) fun _ => .bind (.refl _) fun next => ?_
  exact .ite (.bind (h .statement next) fun _ => .refl _) (.refl _)

theorem branch_extends (h : part.Extends part') (node : Tree) :
    Extends (branch part node) (branch part' node) := by
  unfold branch
  refine .bind (.refl _) fun c => .bind (h .expression c) fun _ => .ite ?_ ?_
  · exact .bind (.refl _) fun s => .bind (h .statement s) fun _ => .refl _
  · refine .bind (.refl _) fun alternative => .ite ?_ (.refl _)
    exact .bind (h .statement alternative) fun _ => .refl _

/-- A loop has a budget of rounds besides the budget of its parts. Both may grow. -/
theorem loop_extends (h : part.Extends part') {n k : Nat} (hn : n ≤ k) (node : Tree) :
    Extends (loop part n node) (loop part' k node) :=
  .bind (.refl _) fun c => Node.repeatWhile_extends (h .expression c)
    (.bind (.refl _) fun s => h .statement s) hn

theorem statement_extends (h : part.Extends part') {n k : Nat} (hn : n ≤ k) (node : Tree) :
    Extends (statement st part n node) (statement st part' k node) := by
  unfold statement
  refine .bind (.refl _) fun tag => .ite ?_ (.ite ?_ (.ite ?_ (.ite ?_ (.ite ?_ ?_))))
  · exact .bind (block_extends h node) fun _ => .refl _
  · exact .bind (Node.assignment_extends h _ _ _ node) fun _ => .refl _
  · exact .bind (branch_extends h node) fun _ => .refl _
  · exact loop_extends h hn node
  · exact .bind (.refl _) fun _ => .bind (Node.printAll_extends h _) fun _ => .refl _
  · exact .bind (expression_extends st h node) fun _ => .refl _

/-- **A step of a stage with control flow** respects the order. -/
theorem step_extends (h : part.Extends part') {n k : Nat} (hn : n ≤ k) :
    Evaluator.Extends (step st part n) (step st part' k)
  | .statement, node => statement_extends st h hn node
  | .expression, node => .bind (expression_extends st h node) fun _ => .refl _

end Structured

/-! ## The stage of `returns` -/

namespace Returning

theorem valueOf_extends (h : part.Extends part') (node : Tree) :
    Extends (valueOf part node) (valueOf part' node) :=
  .bind (h .statement node) fun _ => .refl _

/-- Binding at `returns`, by induction on the arguments. Those left over are part of the result. -/
theorem bindArguments_extends (h : part.Extends part') :
    ∀ (frame : Fields) (ps as : List Tree),
      Extends (bindArguments part frame ps as) (bindArguments part' frame ps as)
  | _, [], _ => .refl _
  | _, _ :: _, [] => .refl _
  | frame, p :: ps, a :: as => by
    unfold bindArguments
    refine .bind (valueOf_extends h a) fun value => .bind (.refl _) fun name => ?_
    exact .bind (.refl _) fun key => bindArguments_extends h _ ps as

/-- A call at `returns`: arguments too many or too few are a fault before the body runs. -/
theorem call_extends (h : part.Extends part') (node : Tree) :
    Extends (call part node) (call part' node) := by
  unfold call
  refine .bind (.refl _) fun callee => .bind (.refl _) fun arguments => ?_
  refine .bind (valueOf_extends h callee) fun f => .bind (.refl _) fun ⟨parameters, body⟩ => ?_
  refine .bind (bindArguments_extends h _ _ _) fun ⟨frame, unused⟩ => ?_
  refine .ite .throw_bind (.ite .throw_bind ?_)
  exact .bind (.refl _) fun caller => .inFrame _ (h .statement body)

theorem block_extends (h : part.Extends part') (node : Tree) :
    Extends (block part node) (block part' node) := by
  unfold block
  refine .bind (.refl _) fun s => .bind (h .statement s) fun _ => .bind (.refl _) fun next => ?_
  exact .ite (.bind (h .statement next) fun _ => .refl _) (.refl _)

theorem branch_extends (h : part.Extends part') (node : Tree) :
    Extends (branch part node) (branch part' node) := by
  unfold branch
  refine .bind (.refl _) fun c => .bind (valueOf_extends h c) fun _ => .ite ?_ ?_
  · exact .bind (.refl _) fun s => .bind (h .statement s) fun _ => .refl _
  · refine .bind (.refl _) fun alternative => .ite ?_ (.refl _)
    exact .bind (h .statement alternative) fun _ => .refl _

/-- A loop at `returns`, whose condition is evaluated as a statement is. -/
theorem loop_extends (h : part.Extends part') {n k : Nat} (hn : n ≤ k) (node : Tree) :
    Extends (loop part n node) (loop part' k node) :=
  .bind (.refl _) fun c => Node.repeatWhile_extends (h .statement c)
    (.bind (.refl _) fun s => h .statement s) hn

/-- The statement or expression with a tag: one case for each tag that the step knows. -/
theorem tagged_extends (h : part.Extends part') {n k : Nat} (hn : n ≤ k) (tag : Value)
    (node : Tree) : Extends (tagged part n tag node) (tagged part' k tag node) := by
  unfold tagged
  refine .ite (.refl _) (.ite (.refl _) (.ite (.refl _) (.ite (call_extends h node) ?_)))
  refine .ite ?_ (.ite ?_ (.ite ?_ ?_))
  · exact .bind (.refl _) fun e => .bind (valueOf_extends h e) fun _ => .refl _
  · exact .bind (Node.operand_extends h node _) fun _ => .refl _
  · exact .bind (Node.operand_extends h node _) fun _ => .refl _
  · refine .ite (block_extends h node) (.ite (branch_extends h node) ?_)
    refine .ite (loop_extends h hn node) (.ite ?_ (.ite ?_ ?_))
    · exact .bind (.refl _) fun _ => .bind (Node.printAll_extends h _) fun _ => .refl _
    · exact .bind (Node.assignment_extends h _ _ _ node) fun _ => .refl _
    · exact .bind (Node.operatorBefore_extends h _ tag node) fun _ => .refl _

/-- **A step of `returns`** respects the order. -/
theorem step_extends (h : part.Extends part') {n k : Nat} (hn : n ≤ k) (node : Tree) :
    Extends (step part n node) (step part' k node) := by
  unfold step
  split
  · exact .refl _
  · exact .bind (.refl _) fun tag => tagged_extends h hn tag _

end Returning

/-! ## The evaluator -/

/-- **A step of the evaluator** respects the order, at every stage. -/
theorem evalStep_extends (st : Stage) (h : part.Extends part') {n k : Nat} (hn : n ≤ k) :
    Evaluator.Extends (evalStep st n part) (evalStep st k part') := by
  intro mode t
  cases st with
  | expressions | assignments | booleans | conditions => exact Plain.step_extends _ h mode t
  | blocks | scopes | functions => exact Structured.step_extends _ h hn mode t
  | returns => exact Returning.step_extends h hn t

/-- **More budget never changes a run that ends.** Each step respects the order
of evaluators, so the whole evaluator does, by induction on the budget. -/
theorem evaluate_extends (st : Stage) :
    ∀ {n k : Nat}, n ≤ k → Evaluator.Extends (evaluate st n) (evaluate st k)
  | 0, _, _ => fun _ _ => .of_exhausted _
  | _ + 1, _ + 1, h =>
    evalStep_extends st (evaluate_extends st (Nat.le_of_succ_le_succ h))
      (Nat.le_of_succ_le_succ h)

/-- The runs of a tree with growing budgets. -/
theorem evaluate_growing (st : Stage) (mode : Mode) (t : Tree) :
    Action.Growing fun n => evaluate st n mode t :=
  fun _ _ h => evaluate_extends st h mode t

/-! ## Outcomes -/

/-- With enough budget, evaluating the tree on `m` gives `r` and leaves `m'`. -/
def Ends (st : Stage) (mode : Mode) (t : Tree) (m : Machine) (r : Except Fault Completion)
    (m' : Machine) : Prop :=
  Action.Reaches (fun n => evaluate st n mode t) m r m'

namespace Ends

variable {st : Stage} {mode : Mode} {t : Tree} {m m₁ m₂ : Machine}
variable {r₁ r₂ : Except Fault Completion}

/-- **A tree has at most one outcome.** -/
theorem unique (h₁ : Ends st mode t m r₁ m₁) (h₂ : Ends st mode t m r₂ m₂) :
    r₁ = r₂ ∧ m₁ = m₂ :=
  Action.Reaches.unique (evaluate_growing st mode t) h₁ h₂

/-- What ends in one way ends in no other. -/
theorem iff_eq (h : Ends st mode t m r₁ m₁) : Ends st mode t m r₂ m₂ ↔ r₂ = r₁ ∧ m₂ = m₁ := by
  refine ⟨fun h' => h'.unique h, ?_⟩
  rintro ⟨rfl, rfl⟩
  exact h

end Ends

end Stepwise
