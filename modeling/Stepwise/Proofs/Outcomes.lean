import Stepwise.Proofs.Frames

/-!
# Outcomes of statements

What a block, an `if` and a `while` come to, in terms of the outcomes of their
parts and with no budget in sight: each passes on the first completion that
returns. A call is such a part like any other, since it completes as the body of
its function does. So a call that stands as a statement returns from the function
around it, if the function that it calls executes a `return`
(`call_statement_outcome`).

- `block_of_completes`, `branch_of_truthy`, `loop_of_completes`: the rest of a
  statement whose first part has completed;
- `loop_reaches`: a loop is its condition, its body once, and the loop again;
- `call_completes`: the completion of a call is that of a function's body.
-/

namespace Stepwise.Returning

open Stepwise.Action (Growing Reaches)

/-- With enough budget, the tree completes at the last stage with this result. -/
abbrev Completes (t : Tree) (m : Machine) (r : Except Fault Completion) (m' : Machine) : Prop :=
  Ends .returns .statement t m r m'

theorem eval_growing (t : Tree) : Growing fun n => eval n t :=
  evaluate_growing .returns .statement t

theorem value_growing (t : Tree) : Growing fun n => value n t :=
  .bind (eval_growing t) fun _ => .const _

theorem passOn_growing (t : Tree) : Growing fun n => (do return passOn (← eval n t)) :=
  .bind (eval_growing t) fun _ => .const _

/-- Binding arguments grows with the budget. -/
theorem bindAll_growing : ∀ (frame : Fields) (xs : List Identifier) (es : List Expression),
    Growing fun n => bindAll n frame xs es
  | _, [], [] | _, [], _ :: _ | _, _ :: _, [] => .const _
  | frame, x :: xs, _ :: es =>
    .bind (value_growing _) fun v => bindAll_growing (Fields.set x.text v frame) xs es

/-- A completion is reached with one unit more. -/
theorem completes_iff {t : Tree} {m m' : Machine} {r : Except Fault Completion} :
    Completes t m r m' ↔ Reaches (fun n => eval (n + 1) t) m r m' :=
  Reaches.succ_iff (eval_growing t)

variable {t u c : Tree} {m m₁ m' : Machine} {d : Completion} {r : Except Fault Completion}

theorem value_of_completes (h : Completes c m (.ok d) m₁) :
    Reaches (fun n => value n c) m (.ok d.value) m₁ :=
  Reaches.map_iff.2 ⟨.ok d, h, rfl⟩

theorem value_of_failed {e : Fault} (h : Completes c m (.error e) m₁) :
    Reaches (fun n => value n c) m (.error e) m₁ :=
  Reaches.map_iff.2 ⟨.error e, h, rfl⟩

/-- A part whose completion is passed on. -/
theorem passOn_of_completes (h : Completes t m (.ok d) m₁) :
    Reaches (fun n => (do return passOn (← eval n t))) m r m' ↔ r = .ok (passOn d) ∧ m' = m₁ := by
  rw [Reaches.map_iff]
  constructor
  · rintro ⟨r₀, hr₀, rfl⟩
    obtain ⟨rfl, rfl⟩ := Ends.unique h hr₀
    exact ⟨rfl, rfl⟩
  · rintro ⟨rfl, rfl⟩
    exact ⟨.ok d, h, rfl⟩

/-- What happens behind a completion: nothing if it returns, else what stands there. -/
theorem behind_iff :
    Reaches (fun n => if d.returning then pure d else eval n t) m r m' ↔
      if d.returning then r = .ok d ∧ m' = m else Completes t m r m' := by
  cases d.returning
  · simp only [Bool.false_eq_true, if_false]
    exact Iff.rfl
  · simp only [if_true]
    exact Reaches.pure_iff

/-- The rest of a block, behind its first statement. -/
theorem block_of_completes (h : Completes t m (.ok d) m₁) {ts : List Tree} (hts : ts ≠ []) :
    Completes (Tree.block (t :: ts)) m r m' ↔
      if d.returning then r = .ok d ∧ m' = m₁ else Completes (Tree.block ts) m₁ r m' := by
  rw [completes_iff]
  cases ts with
  | nil => exact absurd rfl hts
  | cons u us =>
    simp only [eval_block_cons]
    rw [Reaches.bind_of_ok h (eval_growing t) (.ite (.const _) (eval_growing _))]
    exact behind_iff

/-! ## Branches -/

/-- The part of an `if` that a condition leads to. -/
theorem branch_of_truthy (hc : Completes c m (.ok d) m₁) (hd : d.value.truthy = true)
    (a : Option Tree) : Completes (Tree.branch .returns c t a) m r m' ↔
      Reaches (fun n => (do return passOn (← eval n t))) m₁ r m' := by
  rw [completes_iff]
  have hv := value_of_completes hc
  cases a with
  | none =>
    simp only [eval_branch_none]
    rw [Reaches.bind_of_ok hv (value_growing c) (.ite (passOn_growing t) (.const _))]
    simp only [hd, if_true]
  | some a =>
    simp only [eval_branch_some]
    rw [Reaches.bind_of_ok hv (value_growing c)
      (.ite (passOn_growing t) (.ite (passOn_growing a) (.const _)))]
    simp only [hd, if_true]

/-- A branch whose condition does not hold goes on with its alternative. -/
theorem branch_of_not_truthy (hc : Completes c m (.ok d) m₁) (hd : d.value.truthy = false)
    {a : Tree} (ha : a.truthy = true) : Completes (Tree.branch .returns c t (some a)) m r m' ↔
      Reaches (fun n => (do return passOn (← eval n a))) m₁ r m' := by
  rw [completes_iff]
  simp only [eval_branch_some]
  rw [Reaches.bind_of_ok (value_of_completes hc) (value_growing c)
    (.ite (passOn_growing t) (.ite (passOn_growing a) (.const _)))]
  simp only [hd, ha, Bool.false_eq_true, if_false, if_true]

/-! ## Loops -/

/-- One round of a loop, and then the loop again. -/
def unrolled (c t : Tree) (n : Nat) : Action Completion := do
  if (← eval n c).value.truthy then
    let done ← eval n t
    if done.returning then return done else eval n (Tree.loop .returns c t)
  else return .normal .null

/-- **A loop is one round and then the loop.** -/
theorem loop_reaches :
    Completes (Tree.loop .returns c t) m r m' ↔ Reaches (unrolled c t) m r m' :=
  Node.repeatWhile_reaches (eval_growing c) (eval_growing t) (eval_growing _) fun n =>
    eval_loop n c t

/-- The rest of a loop, behind a first round. -/
theorem loop_of_completes {v : Completion} (hc : Completes c m (.ok v) m₁)
    (hv : v.value.truthy = true) {m₂ : Machine} (ht : Completes t m₁ (.ok d) m₂) :
    Completes (Tree.loop .returns c t) m r m' ↔
      if d.returning then r = .ok d ∧ m' = m₂ else Completes (Tree.loop .returns c t) m₂ r m' := by
  have hbehind : ∀ done : Completion, Growing fun n =>
      if done.returning then pure done else eval n (Tree.loop .returns c t) :=
    fun _ => .ite (.const _) (eval_growing _)
  rw [loop_reaches]
  unfold unrolled
  rw [Reaches.bind_of_ok hc (eval_growing c) (.ite (.bind (eval_growing t) hbehind) (.const _))]
  simp only [hv, if_true]
  rw [Reaches.bind_of_ok ht (eval_growing t) (hbehind d)]
  exact behind_iff

/-! ## Calls -/

/-- Entering a function that completes leads to its body, in a frame above the caller's. -/
theorem enter_eq_ok {n : Nat} {parameters body : Tree} {es : List Expression}
    (h : enter n parameters body (Expression.listTree .returns es) m = (.ok d, m')) :
    ∃ frame printed after,
      eval n body ⟨.record (Fields.set Name.parentField m.environment frame), printed⟩ =
        (.ok d, after) ∧
      m' = ⟨m.environment, after.printed⟩ := by
  obtain ⟨⟨frame, unused⟩, m₁, hbind, hbody⟩ := Action.bind_eq_ok h
  have henv : m₁.environment = m.environment :=
    ((bindArguments_confined (expression_confined n) [] _ es).assigned hbind).eq_of_nil
  -- the checks behind the arguments have passed, or the call would have failed
  dsimp only at hbody
  split at hbody
  · cases hbody
  split at hbody
  · cases hbody
  obtain ⟨caller, m₂, hcaller, hframe⟩ := Action.bind_eq_ok hbody
  cases hcaller
  cases hrun : eval n body ⟨.record (Fields.set Name.parentField m₁.environment frame),
      m₁.printed⟩ with
  | mk r after =>
    cases (Action.inFrame_eq hrun).symm.trans hframe
    rw [henv] at hrun ⊢
    exact ⟨frame, m₁.printed, after, hrun, rfl⟩

/-- A call that succeeds completes as the body of a function does, in a frame above the
caller's environment, which is there again afterwards. -/
theorem call_completes {f : Expression} {es : List Expression}
    (h : Completes ((Expression.call f es).tree .returns) m (.ok d) m') :
    ∃ v m₁ parameters body frame printed after,
      Completes (f.tree .returns) m (.ok v) m₁ ∧
      Node.functionParts v.value = .ok (parameters, body) ∧
      Completes body ⟨.record (Fields.set Name.parentField m.environment frame), printed⟩
        (.ok d) after ∧
      m' = ⟨m.environment, after.printed⟩ := by
  obtain ⟨-, n, hn⟩ := completes_iff.1 h
  have hrun := (congrFun (eval_call n [] f es) m).symm.trans hn
  obtain ⟨v, m₁, hvalue, hcall⟩ := Action.bind_eq_ok hrun
  obtain ⟨done, m₂, hdone, hpure⟩ := Action.bind_eq_ok hvalue
  cases hpure
  obtain ⟨⟨parameters, body⟩, m₃, hparts, henter⟩ := Action.bind_eq_ok hcall
  obtain ⟨hfunction, rfl⟩ := Prod.mk.inj hparts
  have henv : m₁.environment = m.environment :=
    ((expression_confined n f []).assigned hdone).eq_of_nil
  obtain ⟨frame, printed, after, hbody, rfl⟩ := enter_eq_ok henter
  rw [henv] at hbody ⊢
  exact ⟨done, m₁, parameters, body, frame, printed, after, ⟨by simp, n, hdone⟩, hfunction,
    ⟨by simp, n, hbody⟩, rfl⟩

/-- **A call that stands as a statement may return from the function around it.** Let a call
complete with `d`, which is how the body of the called function completed. In a block, as the
body of a `while` and as a branch of an `if`, the statement around the call goes on behind it
only if that body did not return; if it did, the statement returns the same value, and
nothing behind the call is evaluated. -/
theorem call_statement_outcome {f : Expression} {es : List Expression} {m m' : Machine}
    {d : Completion} (h : Completes ((Expression.call f es).tree .returns) m (.ok d) m') :
    (∃ v m₁ parameters body frame printed after,
      Completes (f.tree .returns) m (.ok v) m₁ ∧
      Node.functionParts v.value = .ok (parameters, body) ∧
      Completes body ⟨.record (Fields.set Name.parentField m.environment frame), printed⟩
        (.ok d) after ∧
      m' = ⟨m.environment, after.printed⟩) ∧
    (∀ ys : List Statement, ys ≠ [] → ∀ r m₂,
      Completes ((Statement.block (.expression (.call f es) :: ys)).tree .returns) m r m₂ ↔
        if d.returning then r = .ok d ∧ m₂ = m'
        else Completes ((Statement.block ys).tree .returns) m' r m₂) ∧
    (∀ (c : Expression) (v : Completion) (m₀ : Machine),
      Completes (c.tree .returns) m₀ (.ok v) m → ∀ r m₂,
        (v.value.truthy = true → ∀ a : Option Statement,
          (Completes ((Statement.branch c (.expression (.call f es)) a).tree .returns) m₀ r m₂ ↔
            r = .ok (passOn d) ∧ m₂ = m')) ∧
        (v.value.truthy = false → ∀ s : Statement,
          (Completes ((Statement.branch c s (some (.expression (.call f es)))).tree .returns)
              m₀ r m₂ ↔ r = .ok (passOn d) ∧ m₂ = m')) ∧
        (v.value.truthy = true →
          (Completes ((Statement.loop c (.expression (.call f es))).tree .returns) m₀ r m₂ ↔
            if d.returning then r = .ok d ∧ m₂ = m'
            else Completes ((Statement.loop c (.expression (.call f es))).tree .returns)
              m' r m₂))) := by
  refine ⟨call_completes h, ?_, ?_⟩
  · intro ys hys r m₂
    have htrees : Statement.trees .returns ys ≠ [] := by
      cases ys with
      | nil => exact absurd rfl hys
      | cons y ys => exact List.cons_ne_nil _ _
    exact block_of_completes h htrees
  · intro c v m₀ hc r m₂
    refine ⟨fun hv a => ?_, fun hv s => ?_, fun hv => loop_of_completes hc hv h⟩
    · cases a with
      | none => exact (branch_of_truthy hc hv none).trans (passOn_of_completes h)
      | some a => exact (branch_of_truthy hc hv _).trans (passOn_of_completes h)
    · exact (branch_of_not_truthy hc hv rfl).trans (passOn_of_completes h)

/-- With `f` a function that returns 1, the block `f(); x=2` returns 1 and leaves `x` alone. -/
theorem call_statement_outcome_of_return :
    let one : Expression := .function [] [.giveBack (some (.number (.int 1)))]
    let m : Machine := ⟨.record [("f", one.tree .returns)], ""⟩
    let block : Statement := .block [.expression (.call (.name ⟨"f", by decide⟩) []),
      .assign ⟨"x", by decide⟩ (.number (.int 2))]
    ∀ r m', Completes (block.tree .returns) m r m' ↔ r = .ok ⟨.int 1, true⟩ ∧ m' = m := by
  intro one m block r m'
  have hcall : Completes ((Expression.call (.name ⟨"f", by decide⟩) []).tree .returns) m
      (.ok ⟨.int 1, true⟩) m := ⟨by simp, 9, rfl⟩
  exact (call_statement_outcome hcall).2.1 [.assign ⟨"x", by decide⟩ (.number (.int 2))]
    (List.cons_ne_nil _ _) r m'

/-- A block does not always go on behind a call that has succeeded. -/
theorem block_stops_behind_call :
    ¬ ∀ (f : Expression) (es : List Expression) (ys : List Statement) (m m' : Machine)
        (d : Completion), ys ≠ [] →
      Completes ((Expression.call f es).tree .returns) m (.ok d) m' → ∀ r m₂,
        (Completes ((Statement.block (.expression (.call f es) :: ys)).tree .returns) m r m₂ ↔
          Completes ((Statement.block ys).tree .returns) m' r m₂) := by
  intro h
  let one : Expression := .function [] [.giveBack (some (.number (.int 1)))]
  let m : Machine := ⟨.record [("f", one.tree .returns)], ""⟩
  let rest : List Statement := [.assign ⟨"x", by decide⟩ (.number (.int 2))]
  have hcall : Completes ((Expression.call (.name ⟨"f", by decide⟩) []).tree .returns) m
      (.ok ⟨.int 1, true⟩) m := ⟨by simp, 9, rfl⟩
  have hblock : Completes ((Statement.block (.expression (.call (.name ⟨"f", by decide⟩) []) ::
      rest)).tree .returns) m (.ok ⟨.int 1, true⟩) m := ⟨by simp, 9, rfl⟩
  have hrest : Completes ((Statement.block rest).tree .returns) m (.ok ⟨.null, false⟩)
      ⟨.record [("f", one.tree .returns), ("x", .int 2)], ""⟩ := ⟨by simp, 9, rfl⟩
  have hreturned := (h _ [] rest m m _ (List.cons_ne_nil _ _) hcall _ _).1 hblock
  cases (Ends.unique hrest hreturned).1

end Stepwise.Returning
