import Stepwise.Proofs.Budget
import Stepwise.Proofs.SyntaxTrees

/-!
# One step of the last stage's evaluator

What `evaluate .returns` does with each kind of syntax, as one equation a kind.
Proofs about the evaluator cite these equations and the lemmas on lists of
arguments; the tags and fields of nodes play no part in them.

- `Operator.onOperands`: what a node with the sign of an operator does. Its operator is
  found by that sign (`find?_sign`);
- `step_*`: the equations for one step, whatever evaluates the parts. Those of
  expressions hold with others behind them in a list, where the record has one more
  field;
- `Returning.eval n t`, `Returning.value n t`: the completion of a tree with
  budget `n`, and its value;
- `eval_*`: the equations for the evaluator;
- `members_listTree_cons`: the members of a list of expressions. Each is the list
  from that member on.
-/

namespace Stepwise

/-! ## Lists of arguments -/

namespace Tree

/-- What follows a node is what its field `next` holds. -/
theorem followers_eq (fields : Fields) :
    followers fields = ((Fields.get? "next" fields).map members).getD [] := by
  induction fields with
  | nil => rfl
  | cons field rest ih =>
    obtain ⟨key, v⟩ := field
    by_cases h : key = "next" <;> simp [followers, Fields.get?, h, ih]

theorem followersEnd_eq (fields : Fields) :
    followersEnd fields = ((Fields.get? "next" fields).map terminator).getD .null := by
  induction fields with
  | nil => rfl
  | cons field rest ih =>
    obtain ⟨key, v⟩ := field
    by_cases h : key = "next" <;> simp [followersEnd, Fields.get?, h, ih]

/-- A record with a field is not empty. -/
theorem set_ne_nil (name : String) (value : Value) (fields : Fields) :
    Fields.set name value fields ≠ [] := by
  cases fields with
  | nil => simp [Fields.set]
  | cons field rest =>
    obtain ⟨key, v⟩ := field
    by_cases h : key = name <;> simp [Fields.set, h]

/-- The members of a chain are the chain itself and the members behind its first node. -/
theorem members_chain_cons {t : Tree} (ht : t.Single) (ts : List Tree) :
    members (chain (t :: ts)) = chain (t :: ts) :: members (chain ts) := by
  obtain ⟨fields, rfl, hne, hnext⟩ := ht
  cases ts with
  | nil => simp [chain, members, followers_eq, hne, hnext, Value.truthy]
  | cons u us =>
    simp [chain, follow, members, followers_eq, Fields.get?_set_self, set_ne_nil]

/-- Chains of nodes end in null. -/
theorem terminator_chain : ∀ {ts : List Tree}, (∀ t ∈ ts, Single t) → terminator (chain ts) = .null
  | [], _ => rfl
  | [t], h => by
    obtain ⟨fields, rfl, hne, hnext⟩ := h t (by simp)
    simp [chain, terminator, followersEnd_eq, hne, hnext]
  | t :: u :: us, h => by
    obtain ⟨fields, rfl, -, -⟩ := h t (by simp)
    have ih : terminator (chain (u :: us)) = .null :=
      terminator_chain fun t ht => h t (List.mem_cons_of_mem _ ht)
    simp [chain, follow, terminator, followersEnd_eq, Fields.get?_set_self, set_ne_nil, ih]

end Tree

namespace Identifier

variable {st : Stage}

/-- A list of names has the nodes of its tails as members. -/
theorem members_listTree_cons (x : Identifier) (xs : List Identifier) :
    Tree.members (listTree st (x :: xs)) =
      listTree st (x :: xs) :: Tree.members (listTree st xs) :=
  Tree.members_chain_cons x.tree_single _

/-- Lists of names end in null. -/
theorem terminator_listTree (xs : List Identifier) :
    Tree.terminator (listTree st xs) = .null := by
  refine Tree.terminator_chain fun t ht => ?_
  obtain ⟨x, -, rfl⟩ := List.mem_map.1 ht
  exact x.tree_single

/-- A parameter with others behind it still holds its own name. -/
theorem listTree_value (x : Identifier) (xs : List Identifier) :
    (listTree st (x :: xs)).field "value" = .ok (.text x.text) := by
  cases st <;> cases xs <;> rfl

end Identifier

namespace Expression

variable {st : Stage}

/-- A list of expressions has the nodes of its tails as members. -/
theorem members_listTree_cons (e : Expression) (es : List Expression) :
    Tree.members (listTree st (e :: es)) =
      listTree st (e :: es) :: Tree.members (listTree st es) :=
  Tree.members_chain_cons e.tree_single _

/-- Lists of expressions end in null. -/
theorem terminator_listTree (es : List Expression) :
    Tree.terminator (listTree st es) = .null := by
  refine Tree.terminator_chain fun t ht => ?_
  rw [trees_eq_map] at ht
  obtain ⟨e, -, rfl⟩ := List.mem_map.1 ht
  exact e.tree_single

end Expression

/-! ## Operators -/

namespace Operator

/-- The sign of an operator is no other tag that an evaluator knows. -/
theorem isText_sign (op : Operator) : ∀ word ∈ ["number", "identifier", "negate", "not", "=",
    "block", "if", "while", "print", "<number>", "<identifier>", "function", "<function_call>",
    "return"], (Value.text op.sign).isText word = false := by
  cases op <;> decide

/-- From `booleans` on every operator has an operation, found by its sign. -/
theorem find?_sign {st : Stage} (hst : st.has .booleans = true) (op : Operator) :
    Operation.find? st (.text op.sign) = some op.apply := by
  cases op <;>
    simp [Operation.find?, Operation.arithmetic?, Operation.logical?, sign, apply, hst]

/-- What a node with the sign of an operator does, once its operands have their values. -/
def onOperands (op : Operator) (part : Evaluator) (node : Tree) : Action Completion := do
  let (a, b) ← Node.operands part node
  return .normal (← op.apply a b)

/-- A node with an operator's sign applies it to the values of its operands. -/
theorem returning_step {part : Evaluator} {op : Operator} {node : Tree}
    (htag : node.field "tag" = .ok (.text op.sign)) (n : Nat) :
    Returning.step part n node = op.onOperands part node := by
  have hword := op.isText_sign
  simp only [List.forall_mem_cons] at hword
  have htagged : Returning.step part n node = Returning.tagged part n (.text op.sign) node := by
    cases node with
    | record fields =>
      simp only [Returning.step, htag]
      rfl
    | null | bool | int | float | text | list => cases htag
  have hfind : Operation.find? .returns (.text op.sign) = some op.apply := op.find?_sign rfl
  rw [htagged]
  simp [Returning.tagged, hword, Node.operatorBefore, hfind, onOperands]

end Operator

namespace Returning

open Expression (listTree)

/-! ## One step -/

section Step

variable (part : Evaluator) (n : Nat) (rest : List Expression)

theorem step_number (v : Numeric) :
    step part n (listTree .returns (.number v :: rest)) = pure (.normal v.value) := by
  cases rest <;> cases v <;> rfl

/-- The evaluator does not know truth values. -/
theorem step_boolean (b : Bool) :
    step part n (listTree .returns (.boolean b :: rest)) =
      throw (.unknownOperation (.text "<boolean>")) := by
  cases rest <;> rfl

theorem step_name (x : Identifier) :
    step part n (listTree .returns (.name x :: rest)) = do
      let env ← Action.environment
      return .normal (← Name.resolve x.text env) := by
  cases rest <;> rfl

/-- The value of a function is its node, with whatever stands behind it in a list. -/
theorem step_function (ps : List Identifier) (body : List Statement) :
    step part n (listTree .returns (.function ps body :: rest)) =
      pure (.normal (listTree .returns (.function ps body :: rest))) := by
  cases rest <;> rfl

theorem step_negate (e : Expression) :
    step part n (listTree .returns (.negate e :: rest)) = do
      return .normal (← (← valueOf part (e.tree .returns)).negate) := by
  cases rest <;> rfl

theorem step_not (e : Expression) :
    step part n (listTree .returns (.not e :: rest)) = do
      return .normal (Operation.invert (← valueOf part (e.tree .returns))) := by
  cases rest <;> rfl

/-- Both operands are evaluated, the left one first, whatever the operator. -/
theorem step_binary (op : Operator) (l r : Expression) :
    step part n (listTree .returns (.binary op l r :: rest)) = do
      let a ← valueOf part (l.tree .returns)
      let b ← valueOf part (r.tree .returns)
      return .normal (← op.apply a b) := by
  have htag : (listTree .returns (.binary op l r :: rest)).field "tag" = .ok (.text op.sign) := by
    cases rest <;> rfl
  have hoperands : Node.operands part (listTree .returns (.binary op l r :: rest)) = do
      let a ← valueOf part (l.tree .returns)
      let b ← valueOf part (r.tree .returns)
      return (a, b) := by
    cases rest <;> rfl
  rw [Operator.returning_step htag, Operator.onOperands, hoperands]
  simp only [bind_assoc, pure_bind]

/-- A call: the value of what is called, the arguments, then the body in a frame of its own. -/
theorem step_call (f : Expression) (args : List Expression) :
    step part n (listTree .returns (.call f args :: rest)) = (do
      let (parameters, body) ← Node.functionParts (← valueOf part (f.tree .returns))
      let (frame, unused) ← bindArguments part [] (Tree.members parameters)
        (Tree.members (listTree .returns args))
      if !(Tree.terminator parameters).isNull then throw .violation
      if !unused.isEmpty || !(Tree.terminator (listTree .returns args)).isNull then
        throw .violation
      let caller ← Action.environment
      Action.inFrame (.record (Fields.set Name.parentField caller frame))
        (part .statement body)) := by
  cases rest <;> rfl

/-- A block without statements has no field that the evaluator could read. -/
theorem step_block_nil : step part n (Tree.block []) = throw (.missingField "statement") := rfl

theorem step_block_one (t : Tree) :
    step part n (Tree.block [t]) = do return passOn (← part .statement t) := rfl

/-- A return in the first statement leaves the others out. -/
theorem step_block_next (t u : Tree) (ts : List Tree) :
    step part n (Tree.block (t :: u :: ts)) = do
      let first ← part .statement t
      if first.returning then return passOn first
      else return passOn (← part .statement (Tree.block (u :: ts))) := by
  have htruthy : Value.truthy (Tree.block (u :: ts)) = true := by cases ts <;> rfl
  have h : step part n (Tree.block (t :: u :: ts)) = do
      let first ← part .statement t
      if (Value.truthy (Tree.block (u :: ts)) && !first.returning) = true then
        return passOn (← part .statement (Tree.block (u :: ts)))
      else return passOn first := rfl
  rw [h]
  refine bind_congr fun first => ?_
  cases hr : first.returning <;> simp [htruthy]

theorem step_branch_none (c t : Tree) :
    step part n (Tree.branch .returns c t none) = do
      if (← valueOf part c).truthy then return passOn (← part .statement t)
      else return .normal .null := rfl

/-- An `else` that is null counts as none. -/
theorem step_branch_some (c t a : Tree) :
    step part n (Tree.branch .returns c t (some a)) = do
      if (← valueOf part c).truthy then return passOn (← part .statement t)
      else if a.truthy then return passOn (← part .statement a)
      else return .normal .null := rfl

/-- A loop has the rest of the budget for its rounds. -/
theorem step_loop (c t : Tree) :
    step part n (Tree.loop .returns c t) =
      Node.repeatWhile (part .statement c) (part .statement t) n := rfl

theorem step_null : step part n .null = pure (.normal .null) := rfl

/-- A bare `return` gives back the value of nothing, which is null. -/
theorem step_giveBack_none :
    step part n (Tree.giveBack none) = do return ⟨← valueOf part .null, true⟩ := rfl

theorem step_giveBack_some (t : Tree) :
    step part n (Tree.giveBack (some t)) = do return ⟨← valueOf part t, true⟩ := rfl

theorem step_output (t : Tree) :
    step part n (Tree.output t) = do
      Node.printAll part (Tree.members t)
      return .normal .null := rfl

/-- An assignment evaluates its expression, and binds the name. -/
theorem step_assign (x : Identifier) (e : Expression) :
    step part n ((Statement.assign x e).tree .returns) = do
      let c ← part .expression (e.tree .returns)
      Action.assign (.text x.text) c.value
      return .normal .null := by
  have htruthy : Value.truthy (e.tree .returns) = true := by
    cases e <;> rfl
  have h : step part n ((Statement.assign x e).tree .returns) =
      (if (!Value.truthy (e.tree .returns)) = true then throw .emptyAssignment
        else part .expression (e.tree .returns) >>= fun c =>
          Action.assign (.text x.text) c.value) >>= fun _ => pure (.normal .null) := rfl
  rw [h]
  simp [htruthy]

end Step

/-- The completion of a tree at the last stage, where a node is read in one way only. -/
abbrev eval (n : Nat) (t : Tree) : Action Completion :=
  evaluate .returns n .statement t

/-- The value that a tree completes with, returning or not. -/
abbrev value (n : Nat) (t : Tree) : Action Value :=
  valueOf (evaluate .returns n) t

/-- The last stage does not distinguish the two ways of evaluating a node. -/
theorem evaluate_mode (n : Nat) (mode : Mode) (t : Tree) :
    evaluate .returns n mode t = eval n t := by
  cases n <;> rfl

/-! ## Expressions -/

section Expressions

variable (n : Nat) (rest : List Expression)

theorem eval_number (v : Numeric) :
    eval (n + 1) (listTree .returns (.number v :: rest)) = pure (.normal v.value) :=
  step_number _ n rest v

/-- At the last stage a truth value has no value. -/
theorem eval_boolean (b : Bool) :
    eval (n + 1) (listTree .returns (.boolean b :: rest)) =
      throw (.unknownOperation (.text "<boolean>")) :=
  step_boolean _ n rest b

theorem eval_name (x : Identifier) :
    eval (n + 1) (listTree .returns (.name x :: rest)) = do
      let env ← Action.environment
      return .normal (← Name.resolve x.text env) :=
  step_name _ n rest x

/-- The value of a function is its node, with what stands behind it in a list. -/
theorem eval_function (ps : List Identifier) (body : List Statement) :
    eval (n + 1) (listTree .returns (.function ps body :: rest)) =
      pure (.normal (listTree .returns (.function ps body :: rest))) :=
  step_function _ n rest ps body

theorem eval_negate (e : Expression) :
    eval (n + 1) (listTree .returns (.negate e :: rest)) = do
      return .normal (← (← value n (e.tree .returns)).negate) :=
  step_negate _ n rest e

theorem eval_not (e : Expression) :
    eval (n + 1) (listTree .returns (.not e :: rest)) = do
      return .normal (Operation.invert (← value n (e.tree .returns))) :=
  step_not _ n rest e

theorem eval_binary (op : Operator) (l r : Expression) :
    eval (n + 1) (listTree .returns (.binary op l r :: rest)) = do
      let a ← value n (l.tree .returns)
      let b ← value n (r.tree .returns)
      return .normal (← op.apply a b) :=
  step_binary _ n rest op l r

/-- With a function's parts at hand: the arguments, then the body in a frame of its own. -/
def enter (parameters body arguments : Tree) : Action Completion := do
  let (frame, unused) ←
    bindArguments (evaluate .returns n) [] (Tree.members parameters) (Tree.members arguments)
  if !(Tree.terminator parameters).isNull then throw .violation
  if !unused.isEmpty || !(Tree.terminator arguments).isNull then throw .violation
  let caller ← Action.environment
  Action.inFrame (.record (Fields.set Name.parentField caller frame)) (eval n body)

/-- A call is the value of what is called, then the function that it is. -/
theorem eval_call (f : Expression) (args : List Expression) :
    eval (n + 1) (listTree .returns (.call f args :: rest)) =
      (do
        let (parameters, body) ← Node.functionParts (← value n (f.tree .returns))
        enter n parameters body (listTree .returns args)) :=
  step_call _ n rest f args

/-- Binds parameters to the values of arguments; there have to be as many of the one as of
the other. -/
def bindAll : Fields → List Identifier → List Expression → Action Fields
  | frame, [], [] => pure frame
  | frame, x :: xs, e :: es => do
    let v ← value n (listTree .returns (e :: es))
    bindAll (frame.set x.text v) xs es
  | _, _, _ => throw .violation

/-- Binding along the chains of a call is binding along its lists. -/
theorem bindArguments_listTree {β : Type} (f : Fields → Action β) :
    ∀ (frame : Fields) (xs : List Identifier) (es : List Expression),
      (do
        let (frame, unused) ← bindArguments (evaluate .returns n) frame
          (Tree.members (Identifier.listTree .returns xs)) (Tree.members (listTree .returns es))
        if unused.isEmpty then f frame else throw .violation) =
      bindAll n frame xs es >>= f
  | _, [], [] => rfl
  | frame, [], e :: es => by
    rw [Expression.members_listTree_cons]
    rfl
  | frame, x :: xs, [] => by
    rw [Identifier.members_listTree_cons]
    rfl
  | frame, x :: xs, e :: es => by
    rw [Identifier.members_listTree_cons, Expression.members_listTree_cons]
    -- one parameter and one argument: the value is bound, and the tails go on
    simp only [bindArguments, bindAll, bind_assoc]
    refine bind_congr fun v => ?_
    rw [Identifier.listTree_value]
    exact bindArguments_listTree f (frame.set x.text v) xs es

/-- A function that the parser made is entered with the frame that its parameters give. -/
theorem enter_listTree (xs : List Identifier) (body : Tree) (es : List Expression) :
    enter n (Identifier.listTree .returns xs) body (listTree .returns es) =
      (do
        let frame ← bindAll n [] xs es
        let caller ← Action.environment
        Action.inFrame (.record (Fields.set Name.parentField caller frame)) (eval n body)) := by
  rw [← bindArguments_listTree]
  unfold enter
  rw [Identifier.terminator_listTree, Expression.terminator_listTree]
  refine bind_congr fun bound => ?_
  cases h : bound.2.isEmpty <;> simp [h, Value.isNull]

/-! ## Printing -/

theorem printAll_nil : Node.printAll (evaluate .returns n) (Tree.members (listTree .returns [])) =
    Action.print "\n" := rfl

/-- Each value is written with a space behind it. -/
theorem printAll_cons (e : Expression) (es : List Expression) :
    Node.printAll (evaluate .returns n) (Tree.members (listTree .returns (e :: es))) =
      (do
        let v ← value n (listTree .returns (e :: es))
        Action.print ((← v.print) ++ " ")
        Node.printAll (evaluate .returns n) (Tree.members (listTree .returns es))) := by
  rw [Expression.members_listTree_cons]
  simp only [Node.printAll, evaluate_mode, valueOf, bind_assoc, pure_bind]

end Expressions

/-! ## Statements -/

section Statements

variable (n : Nat)

theorem eval_block_nil : eval (n + 1) (Tree.block []) = throw (.missingField "statement") :=
  step_block_nil _ n

theorem eval_block_one (t : Tree) :
    eval (n + 1) (Tree.block [t]) = do return passOn (← eval n t) := step_block_one _ n t

theorem passOn_passOn (c : Completion) : passOn (passOn c) = passOn c := by
  unfold passOn
  cases h : c.returning <;> simp [Completion.normal, h]

/-- The second statement is evaluated as the first one of a shorter block. -/
theorem eval_block_next (t u : Tree) (ts : List Tree) :
    eval (n + 1) (Tree.block (t :: u :: ts)) = do
      let first ← eval n t
      if first.returning then return passOn first
      else return passOn (← eval n (Tree.block (u :: ts))) :=
  step_block_next _ n t u ts

/-- Passing on the completion of a block changes nothing: the block has done so. -/
theorem eval_block_passOn : ∀ (n : Nat) (ts : List Tree),
    (do return passOn (← eval n (Tree.block ts))) = eval n (Tree.block ts)
  | 0, _ | _ + 1, [] => rfl
  | n + 1, [t] => by
    rw [eval_block_one]
    simp only [bind_assoc, pure_bind, passOn_passOn]
  | n + 1, t :: u :: ts => by
    rw [eval_block_next]
    simp only [bind_assoc]
    refine bind_congr fun first => ?_
    cases first.returning <;> simp only [Bool.false_eq_true, if_false, if_true, bind_assoc,
      pure_bind, passOn_passOn]

/-- A block goes on behind a statement unless the statement returns. -/
theorem eval_block_cons (t u : Tree) (ts : List Tree) :
    eval (n + 1) (Tree.block (t :: u :: ts)) =
      (do
        let first ← eval n t
        if first.returning then return first else eval n (Tree.block (u :: ts))) := by
  rw [eval_block_next, eval_block_passOn]
  refine bind_congr fun first => ?_
  cases hr : first.returning <;> simp [passOn, hr]

theorem eval_branch_none (c t : Tree) :
    eval (n + 1) (Tree.branch .returns c t none) = do
      if (← value n c).truthy then return passOn (← eval n t) else return .normal .null :=
  step_branch_none _ n c t

theorem eval_branch_some (c t a : Tree) :
    eval (n + 1) (Tree.branch .returns c t (some a)) = do
      if (← value n c).truthy then return passOn (← eval n t)
      else if a.truthy then return passOn (← eval n a)
      else return .normal .null :=
  step_branch_some _ n c t a

/-- A loop evaluates its condition anew in every round. -/
theorem eval_loop (c t : Tree) :
    eval (n + 1) (Tree.loop .returns c t) = Node.repeatWhile (eval n c) (eval n t) n :=
  step_loop _ n c t

theorem eval_null : eval (n + 1) .null = pure (.normal .null) := step_null (evaluate .returns n) n

/-- A return without an expression gives null back. -/
theorem eval_giveBack_none :
    eval (n + 1) (Tree.giveBack none) = do return ⟨← value n .null, true⟩ :=
  step_giveBack_none _ n

theorem eval_giveBack_some (t : Tree) :
    eval (n + 1) (Tree.giveBack (some t)) = do return ⟨← value n t, true⟩ :=
  step_giveBack_some _ n t

theorem eval_output (t : Tree) :
    eval (n + 1) (Tree.output t) = do
      Node.printAll (evaluate .returns n) (Tree.members t)
      return .normal .null :=
  step_output _ n t

/-- The value of the expression is bound to the name. -/
theorem eval_assign (x : Identifier) (e : Expression) :
    eval (n + 1) ((Statement.assign x e).tree .returns) = do
      let v ← value n (e.tree .returns)
      Action.assign (.text x.text) v
      return .normal .null := by
  have h := step_assign (evaluate .returns n) n x e
  rw [evaluate_mode] at h
  simp only [valueOf, bind_assoc, pure_bind]
  exact h

end Statements

end Returning

end Stepwise
