import Stepwise.Proofs.Outcomes

/-!
# Endings of statements

A completion holds a value and a flag. What matters of it is less: of an
expression the value, of a statement whether it ends normally or returns a value
(`Ending`). The equations of this module say what the evaluator does in these
terms: the flag is gone, and blocks, loops and calls are left with the meaning
that their endings give them.

- `ending n t`: how the statement `t` ends with budget `n`;
- `value_*`, `ending_*`: one equation for each kind of syntax, but for calls that
  stand alone as statements.
-/

namespace Stepwise

/-- How a statement ends. -/
inductive Ending where
  /-- What follows the statement runs next. -/
  | normal
  /-- The function around the statement ends with a value. -/
  | returned (v : Value)
deriving Inhabited

/-- What a function gives whose body ends so. -/
def Ending.value : Ending → Value
  | .normal => .null
  | .returned v => v

/-- A completion as an ending. -/
def Completion.ending (c : Completion) : Ending :=
  if c.returning then .returned c.value else .normal

namespace Completion

variable {c : Completion}

theorem ending_normal (v : Value) : (normal v).ending = .normal := rfl

theorem ending_of_returning (h : c.returning = true) : c.ending = .returned c.value := by
  simp [ending, h]

theorem ending_of_not_returning (h : c.returning = false) : c.ending = .normal := by
  simp [ending, h]

end Completion

namespace Action

variable {α β : Type}

/-- A result may be changed inside or outside of a frame. -/
theorem inFrame_bind_pure (frame : Value) (x : Action α) (f : α → β) :
    (Action.inFrame frame x >>= fun a => pure (f a)) =
      Action.inFrame frame (x >>= fun a => pure (f a)) := by
  funext m
  rw [bind_pure_apply]
  exact (inFrame_eq (bind_pure_apply x f ⟨frame, m.printed⟩)).symm

end Action

namespace Returning

open Expression (listTree)

/-- How the tree of a statement ends. -/
def ending (n : Nat) (t : Tree) : Action Ending := do
  return (← eval n t).ending

theorem passOn_ending (c : Completion) : (passOn c).ending = c.ending := by
  unfold passOn
  cases h : c.returning <;> simp [Completion.ending, Completion.normal, h]

theorem passOn_value (c : Completion) : (passOn c).value = c.ending.value := by
  unfold passOn
  cases h : c.returning <;> simp [Completion.ending, Completion.normal, Ending.value, h]

/-- How statements end that pass on the completion of a part. -/
theorem ending_passOn (n : Nat) (t : Tree) :
    (do let c ← eval n t; return (passOn c).ending : Action Ending) = ending n t := by
  simp only [ending, passOn_ending]

variable (n : Nat)

/-! ## Expressions -/

section Expressions

variable (rest : List Expression)

theorem value_number (v : Numeric) :
    value (n + 1) (listTree .returns (.number v :: rest)) = pure v.value := by
  rw [value, valueOf, ← eval, eval_number]
  rfl

/-- No evaluator knows truth values: the tag of one is reported. -/
theorem value_boolean (b : Bool) :
    value (n + 1) (listTree .returns (.boolean b :: rest)) =
      throw (.unknownOperation (.text "<boolean>")) := by
  rw [value, valueOf, ← eval, eval_boolean]
  rfl

/-- A name stands for what it is bound to, in the innermost frame that binds it. -/
theorem value_name (x : Identifier) :
    value (n + 1) (listTree .returns (.name x :: rest)) =
      (do Name.resolve x.text (← Action.environment)) := by
  rw [value, valueOf, ← eval, eval_name]
  simp only [bind_assoc, pure_bind, Completion.normal, bind_pure]

/-- A function is its own node. As an argument it still holds the arguments behind it. -/
theorem value_function (xs : List Identifier) (ss : List Statement) :
    value (n + 1) (listTree .returns (.function xs ss :: rest)) =
      pure (listTree .returns (.function xs ss :: rest)) := by
  rw [value, valueOf, ← eval, eval_function]
  rfl

theorem value_negate (e : Expression) :
    value (n + 1) (listTree .returns (.negate e :: rest)) =
      (do (← value n (e.tree .returns)).negate) := by
  rw [value, valueOf, ← eval, eval_negate]
  simp only [bind_assoc, pure_bind, Completion.normal, bind_pure]

theorem value_not (e : Expression) :
    value (n + 1) (listTree .returns (.not e :: rest)) =
      (do return Operation.invert (← value n (e.tree .returns))) := by
  rw [value, valueOf, ← eval, eval_not]
  simp only [bind_assoc, pure_bind, Completion.normal]

theorem value_binary (op : Operator) (l r : Expression) :
    value (n + 1) (listTree .returns (.binary op l r :: rest)) =
      (do
        let a ← value n (l.tree .returns)
        let b ← value n (r.tree .returns)
        op.apply a b) := by
  rw [value, valueOf, ← eval, eval_binary]
  simp only [bind_assoc, pure_bind, Completion.normal, bind_pure]

/-- The value of a call, with the parts of the function at hand. -/
def invoke (parameters body arguments : Tree) : Action Value := do
  return (← enter n parameters body arguments).value

/-- A call evaluates the callee, takes the parts of the function and runs it. -/
theorem value_call (f : Expression) (es : List Expression) :
    value (n + 1) (listTree .returns (.call f es :: rest)) =
      (do
        let v ← value n (f.tree .returns)
        let parts ← Node.functionParts v
        invoke n parts.1 parts.2 (listTree .returns es)) := by
  rw [value, valueOf, ← eval, eval_call]
  simp only [bind_assoc]
  rfl

/-- An expression that is no call completes with its value and does not return. -/
theorem eval_eq_value {e : Expression} (h : e.isCall = false) :
    eval (n + 1) (e.tree .returns) =
      (do return .normal (← value (n + 1) (e.tree .returns))) := by
  rw [Expression.tree_eq_listTree]
  cases e with
  | number v => rw [eval_number, value_number]; rfl
  | boolean b => rw [eval_boolean, value_boolean]; rfl
  | name x => rw [eval_name, value_name, bind_assoc]
  | negate e => rw [eval_negate, value_negate, bind_assoc]
  | not e => rw [eval_not, value_not, bind_assoc]; rfl
  | binary op l r => rw [eval_binary, value_binary, bind_assoc]; simp only [bind_assoc]
  | function xs ss => rw [eval_function, value_function]; rfl
  | call f es => cases h

/-- An expression that is no call ends normally, whatever its value. -/
theorem ending_expression {e : Expression} (h : e.isCall = false) :
    ending (n + 1) (e.tree .returns) =
      (do
        let _ ← value (n + 1) (e.tree .returns)
        return .normal) := by
  rw [ending, eval_eq_value n h]
  simp only [bind_assoc, pure_bind]
  rfl

end Expressions

/-! ## Statements -/

/-- An empty block has no statement, which is a fault. -/
theorem ending_block_nil :
    ending (n + 1) (Tree.block []) = throw (.missingField "statement") := by
  rw [ending, eval_block_nil]
  rfl

/-- The last statement of a block decides how the block ends. -/
theorem ending_block_one (t : Tree) : ending (n + 1) (Tree.block [t]) = ending n t := by
  rw [ending, eval_block_one]
  simp only [bind_assoc, pure_bind, passOn_ending]
  rfl

/-- A block goes on behind a statement that ends normally. -/
theorem ending_block_cons (t u : Tree) (ts : List Tree) :
    ending (n + 1) (Tree.block (t :: u :: ts)) =
      (do
        match ← ending n t with
        | .normal => ending n (Tree.block (u :: ts))
        | .returned v => return .returned v) := by
  rw [ending, eval_block_cons, ending]
  simp only [bind_assoc, pure_bind]
  refine bind_congr fun c => ?_
  cases h : c.returning
  · simp only [Completion.ending_of_not_returning h, Bool.false_eq_true, if_false]
    rfl
  · simp only [Completion.ending_of_returning h, if_true, pure_bind]

/-- No statement's tree is taken for a missing `else`. -/
theorem truthy_tree (s : Statement) : Value.truthy (s.tree .returns) = true := by
  match s with
  | .block [] | .block [_] | .block (_ :: _ :: _) => rfl
  | .branch _ _ none | .branch _ _ (some _) => rfl
  | .loop _ _ | .print _ | .assign _ _ => rfl
  | .giveBack none | .giveBack (some _) => rfl
  | .expression e => cases e <;> rfl

/-- How the `else` part of an `if` ends, where there may be none. -/
def otherwise : Option Statement → Action Ending
  | none => pure .normal
  | some a => ending n (a.tree .returns)

/-- A branch ends as the statement does that the condition chooses. -/
theorem ending_branch (c : Expression) (s : Statement) (a : Option Statement) :
    ending (n + 1) ((Statement.branch c s a).tree .returns) =
      (do
        if (← value n (c.tree .returns)).truthy then ending n (s.tree .returns)
        else otherwise n a) := by
  cases a with
  | none =>
    rw [Statement.tree, ending, eval_branch_none, bind_assoc]
    refine bind_congr fun v => ?_
    cases v.truthy
    · simp only [Bool.false_eq_true, if_false, pure_bind, Completion.ending_normal, otherwise]
    · simp only [if_true, bind_assoc, pure_bind, ending_passOn]
  | some a =>
    rw [Statement.tree, ending, eval_branch_some, bind_assoc]
    refine bind_congr fun v => ?_
    -- an alternative is there if its tree does not count as absent, and it never does
    cases v.truthy
    · simp only [Bool.false_eq_true, if_false, truthy_tree, if_true, bind_assoc, pure_bind,
        ending_passOn, otherwise]
    · simp only [if_true, bind_assoc, pure_bind, ending_passOn]

/-- One round of a loop, with what comes behind it. -/
theorem round_ending (c t : Tree) {again : Action Completion} {again' : Action Ending}
    (h : (do return (← again).ending) = again') :
    (do
      let done ← (do
        if (← eval n c).value.truthy then
          let done ← eval n t
          if done.returning then return done else again
        else return .normal .null)
      return done.ending) =
    (do
      if (← value n c).truthy then
        match ← ending n t with
        | .normal => again'
        | .returned v => return .returned v
      else return .normal) := by
  rw [value, valueOf, ending]
  simp only [bind_assoc, pure_bind]
  refine bind_congr fun v => ?_
  cases v.value.truthy
  · simp only [Bool.false_eq_true, if_false, pure_bind, Completion.ending_normal]
  · simp only [if_true, bind_assoc]
    refine bind_congr fun done => ?_
    cases hd : done.returning
    · simpa only [Completion.ending_of_not_returning hd, Bool.false_eq_true, if_false] using h
    · simp only [Completion.ending_of_returning hd, if_true, pure_bind]

/-- Repeats a body while a condition holds and the body ends normally. -/
def cycle (condition : Action Value) (body : Action Ending) : Nat → Action Ending
  | 0 => throw .exhausted
  | k + 1 => do
    if (← condition).truthy then
      match ← body with
      | .normal => cycle condition body k
      | .returned v => return .returned v
    else return .normal

/-- A loop in terms of endings, by induction on its rounds. -/
theorem repeatWhile_ending (c t : Tree) : ∀ k : Nat,
    (do return (← Node.repeatWhile (eval n c) (eval n t) k).ending) =
      cycle (value n c) (ending n t) k
  | 0 => rfl
  | k + 1 => by
    rw [Node.repeatWhile, cycle]
    exact round_ending n c t (repeatWhile_ending c t k)

/-- A loop has as many rounds as there is budget. -/
theorem ending_loop (c t : Tree) :
    ending (n + 1) (Tree.loop .returns c t) = cycle (value n c) (ending n t) n := by
  rw [ending, eval_loop, repeatWhile_ending]

/-- **A loop is its condition, its body once and, if that ends normally, the loop again.** -/
theorem ending_loop_reaches {c t : Tree} {m m' : Machine} {o : Except Fault Ending} :
    Action.Reaches (fun n => ending n (Tree.loop .returns c t)) m o m' ↔
      Action.Reaches (fun n => (do
        if (← value n c).truthy then
          match ← ending n t with
          | .normal => ending n (Tree.loop .returns c t)
          | .returned v => return .returned v
        else return .normal)) m o m' := by
  have hround : ∀ n, (do return (← unrolled c t n).ending) = (do
      if (← value n c).truthy then
        match ← ending n t with
        | .normal => ending n (Tree.loop .returns c t)
        | .returned v => return .returned v
      else return .normal) :=
    fun n => round_ending n c t rfl
  simp only [← hround]
  unfold ending
  rw [Action.Reaches.map_iff, Action.Reaches.map_iff]
  exact exists_congr fun r => and_congr_left fun _ => loop_reaches

/-- A `return` without a value evaluates null. -/
theorem ending_giveBack_none :
    ending (n + 1) (Tree.giveBack none) = (do return .returned (← value n .null)) := by
  rw [ending, eval_giveBack_none]
  simp only [bind_assoc, pure_bind, Completion.ending, if_true]

/-- A `return` ends the function with the value of its expression. -/
theorem ending_giveBack_some (t : Tree) :
    ending (n + 1) (Tree.giveBack (some t)) = (do return .returned (← value n t)) := by
  rw [ending, eval_giveBack_some]
  simp only [bind_assoc, pure_bind, Completion.ending, if_true]

theorem ending_output (es : List Expression) :
    ending (n + 1) (Tree.output (listTree .returns es)) =
      (do
        Node.printAll (evaluate .returns n) (Tree.members (listTree .returns es))
        return .normal) := by
  rw [ending, eval_output]
  simp only [bind_assoc, pure_bind, Completion.ending_normal]

theorem ending_assign (x : Identifier) (e : Expression) :
    ending (n + 1) ((Statement.assign x e).tree .returns) =
      (do
        Action.assign (.text x.text) (← value n (e.tree .returns))
        return .normal) := by
  rw [ending, eval_assign]
  simp only [bind_assoc, pure_bind, Completion.ending_normal]

/-! ## Completions of statements -/

/-- A loop completes with null or returns, and so passing on its completion changes nothing. -/
theorem repeatWhile_passOn (condition body : Action Completion) : ∀ k : Nat,
    (do return passOn (← Node.repeatWhile condition body k)) = Node.repeatWhile condition body k
  | 0 => rfl
  | k + 1 => by
    rw [Node.repeatWhile]
    simp only [bind_assoc]
    refine bind_congr fun v => ?_
    cases v.value.truthy
    · rfl
    · simp only [if_true, bind_assoc]
      refine bind_congr fun done => ?_
      cases h : done.returning
      · simpa only [Bool.false_eq_true, if_false] using repeatWhile_passOn condition body k
      · simp only [if_true, pure_bind, passOn, h]

/-- A statement that is no expression completes with null, unless it returns. -/
theorem eval_passOn {s : Statement} (hs : ∀ e, s ≠ .expression e) :
    ∀ n : Nat, (do return passOn (← eval n (s.tree .returns))) = eval n (s.tree .returns)
  | 0 => rfl
  | n + 1 => by
    -- each statement ends in a completion that was passed on, that is null, or that returns
    match s with
    | .block ss => exact eval_block_passOn (n + 1) _
    | .branch c s none =>
      rw [Statement.tree, eval_branch_none, bind_assoc]
      refine bind_congr fun v => ?_
      cases v.truthy
      · rfl
      · simp only [if_true, bind_assoc, pure_bind, passOn_passOn]
    | .branch c s (some a) =>
      rw [Statement.tree, eval_branch_some, bind_assoc]
      refine bind_congr fun v => ?_
      cases v.truthy
      · simp only [Bool.false_eq_true, if_false, truthy_tree, if_true, bind_assoc, pure_bind,
          passOn_passOn]
      · simp only [if_true, bind_assoc, pure_bind, passOn_passOn]
    | .loop c s =>
      rw [Statement.tree, eval_loop]
      exact repeatWhile_passOn _ _ n
    | .giveBack none =>
      rw [Statement.tree, eval_giveBack_none]
      simp only [bind_assoc, pure_bind, passOn, if_true]
    | .giveBack (some e) =>
      rw [Statement.tree, eval_giveBack_some]
      simp only [bind_assoc, pure_bind, passOn, if_true]
    | .print es =>
      rw [Statement.tree, eval_output]
      simp only [bind_assoc, pure_bind]
      rfl
    | .assign x e =>
      rw [eval_assign]
      simp only [bind_assoc, pure_bind]
      rfl
    | .expression e => exact absurd rfl (hs e)

/-! ## Bodies of functions -/

/-- The value of a block is what its ending says. -/
theorem value_block (ts : List Tree) :
    value n (Tree.block ts) = (do return (← ending n (Tree.block ts)).value) := by
  rw [value, valueOf, ← eval, ending, ← eval_block_passOn]
  simp only [bind_assoc, pure_bind, passOn_value, passOn_ending]

/-- A function that the parser made gives what its body's ending says, and the caller's
environment is back afterwards. -/
theorem invoke_listTree (xs : List Identifier) (ss : List Statement) (es : List Expression) :
    invoke n (Identifier.listTree .returns xs) ((Statement.block ss).tree .returns)
        (listTree .returns es) =
      (do
        let frame ← bindAll n [] xs es
        let caller ← Action.environment
        Action.inFrame (.record (Fields.set Name.parentField caller frame))
          (do return (← ending n ((Statement.block ss).tree .returns)).value)) := by
  rw [invoke, enter_listTree]
  simp only [bind_assoc, Action.inFrame_bind_pure]
  rw [Statement.tree, ← value_block]
  rfl

end Returning

end Stepwise
