import Stepwise.Proofs.Outcomes

/-!
# Passing arguments

What a call does between the value of its callee and the body of the function: which arguments
are evaluated, in which environment, and what the body finds in its frame
(`call_passes_arguments`).

- `Passed env k es`, `Failed env k es`: the first `k` arguments are evaluated from left to right,
  and all of them have values, or one of them fails. The parameters play no part in this, nor does
  the body;
- `callFrame`: the frame of a call. `get?_callFrame` says what each name is bound to in it;
- `bindAll_of_passed`, `bindAll_of_failed`, `passed_or_failed`: binding parameters to arguments
  evaluates as many arguments as there are of both, and is done if there are as many of the one as
  of the other.

An argument is evaluated as it stands in its list, where its node holds the arguments behind it.
Only the value of a function tells (`completes_listTree`, `completes_function`).
-/

namespace Stepwise.Returning

open Stepwise.Action (Growing Reaches)
open Expression (listTree)

/-! ## Arguments one after the other -/

/-- The first `k` arguments of a list are evaluated from left to right in the environment `env`,
and none of them fails: their values, and what is printed before and after. -/
inductive Passed (env : Value) : Nat → List Expression → String → List Value → String → Prop
  | done (es : List Expression) (out : String) : Passed env 0 es out [] out
  | next {k : Nat} {e : Expression} {es : List Expression} {out out₁ out₂ : String}
      {c : Completion} {vs : List Value} :
      Completes (listTree .returns (e :: es)) ⟨env, out⟩ (.ok c) ⟨env, out₁⟩ →
      Passed env k es out₁ vs out₂ →
      Passed env (k + 1) (e :: es) out (c.value :: vs) out₂

/-- One of the first `k` arguments fails, when those before it have been evaluated. -/
inductive Failed (env : Value) : Nat → List Expression → String → Fault → String → Prop
  | here {k : Nat} {e : Expression} {es : List Expression} {out out₁ : String} {fault : Fault} :
      Completes (listTree .returns (e :: es)) ⟨env, out⟩ (.error fault) ⟨env, out₁⟩ →
      Failed env (k + 1) (e :: es) out fault out₁
  | later {k : Nat} {e : Expression} {es : List Expression} {out out₁ out₂ : String}
      {c : Completion} {fault : Fault} :
      Completes (listTree .returns (e :: es)) ⟨env, out⟩ (.ok c) ⟨env, out₁⟩ →
      Failed env k es out₁ fault out₂ →
      Failed env (k + 1) (e :: es) out fault out₂

/-- An argument completes in a list as it does by itself, unless it is a function: the value of a
function is its node, and the node holds the arguments behind it. -/
theorem completes_listTree {e : Expression} (he : ∀ xs ss, e ≠ .function xs ss)
    (rest : List Expression) : Completes (listTree .returns (e :: rest)) =
      Completes (e.tree .returns) := by
  have hstep : ∀ n, eval n (listTree .returns (e :: rest)) = eval n (listTree .returns [e]) := by
    intro n
    cases n with
    | zero => rfl
    | succ n =>
      cases e with
      | number v => rw [eval_number, eval_number]
      | boolean b => rw [eval_boolean, eval_boolean]
      | name x => rw [eval_name, eval_name]
      | negate e => rw [eval_negate, eval_negate]
      | not e => rw [eval_not, eval_not]
      | binary op l r => rw [eval_binary, eval_binary]
      | call f es => rw [eval_call, eval_call]
      | function xs ss => exact absurd rfl (he xs ss)
  rw [Expression.tree_eq_listTree]
  exact congrArg Reaches (funext hstep)

/-- The value of a function that is an argument is its node. -/
theorem completes_function {xs : List Identifier} {ss : List Statement} {rest : List Expression}
    {m m' : Machine} {r : Except Fault Completion} :
    Completes (listTree .returns (.function xs ss :: rest)) m r m' ↔
      r = .ok (.normal (listTree .returns (.function xs ss :: rest))) ∧ m' = m := by
  have hstep : ∀ n, eval (n + 1) (listTree .returns (.function xs ss :: rest)) =
      pure (.normal (listTree .returns (.function xs ss :: rest))) :=
    fun n => eval_function n rest xs ss
  rw [completes_iff, funext hstep]
  exact Reaches.pure_iff

/-- No argument changes the environment. -/
theorem argument_environment {e : Expression} {rest : List Expression} {m m' : Machine}
    {r : Except Fault Completion} (h : Completes (listTree .returns (e :: rest)) m r m') :
    m' = ⟨m.environment, m'.printed⟩ := by
  obtain ⟨-, n, hn⟩ := h
  rw [← ((expression_confined n e rest).assigned hn).eq_of_nil]

/-! ## The frame of a call -/

/-- The fields of a frame, with each name set to its value in turn. -/
def bound (frame : Fields) (xs : List Identifier) (vs : List Value) : Fields :=
  (xs.zip vs).foldl (fun fields b => fields.set b.1.text b.2) frame

/-- The frame of a call: the parameters with their values, and the caller's environment. -/
def callFrame (caller : Value) (xs : List Identifier) (vs : List Value) : Fields :=
  Fields.set Name.parentField caller (bound [] xs vs)

/-- Of the values that are bound to one name the last is found. -/
theorem get?_bound (name : Key) : ∀ (bs : List (Identifier × Value)) (frame : Fields),
    Fields.get? name (bs.foldl (fun fields b => fields.set b.1.text b.2) frame) =
      ((bs.reverse.find? (·.1.text == name)).map (·.2)).or (Fields.get? name frame)
  | [], frame => rfl
  | b :: bs, frame => by
    rw [List.foldl_cons, get?_bound name bs, List.reverse_cons, List.find?_append]
    cases bs.reverse.find? (·.1.text == name) with
    | some found => rfl
    | none =>
      by_cases h : b.1.text = name
      · subst h
        simp [Fields.get?_set_self]
      · simp [h, Fields.get?_set_of_ne _ (Ne.symm h)]

/-- The last argument for a parameter is the one that counts. -/
theorem get?_callFrame (caller : Value) (xs : List Identifier) (vs : List Value) (name : Key) :
    Fields.get? name (callFrame caller xs vs) =
      if name = Name.parentField then some caller
      else ((xs.zip vs).reverse.find? (·.1.text == name)).map (·.2) := by
  by_cases h : name = Name.parentField
  · rw [if_pos h, h, callFrame, Fields.get?_set_self]
  · rw [if_neg h, callFrame, Fields.get?_set_of_ne _ h, bound, get?_bound]
    exact Option.or_none

/-! ## Binding -/

/-- All arguments that have a parameter are passed, and then their number is compared. -/
theorem bindAll_of_passed {env : Value} {k : Nat} {es : List Expression} {out out₁ : String}
    {vs : List Value} (h : Passed env k es out vs out₁) {xs : List Identifier} (frame : Fields)
    (hk : k = min xs.length es.length) :
    Reaches (fun n => bindAll n frame xs es) ⟨env, out⟩
      (if xs.length = es.length then .ok (bound frame xs vs) else .error .violation)
      ⟨env, out₁⟩ := by
  induction h generalizing xs frame with
  | done es out =>
    -- there are no more parameters, or no more arguments
    cases xs with
    | nil =>
      cases es with
      | nil => exact Reaches.pure_iff.2 ⟨rfl, rfl⟩
      | cons e es => exact Reaches.const_iff.2 ⟨by simp, rfl⟩
    | cons x xs =>
      cases es with
      | nil => exact Reaches.const_iff.2 ⟨by simp, rfl⟩
      | cons e es => simp at hk
  | next hc _ ih =>
    cases xs with
    | nil => simp at hk
    | cons x xs =>
      refine (Reaches.bind_of_ok (value_of_completes hc) (value_growing _)
        (bindAll_growing _ _ _)).2 ?_
      simp only [List.length_cons, Nat.add_right_cancel_iff]
      exact ih (frame.set x.text _) (by simpa using hk)

/-- The first argument that fails ends the call with its fault. -/
theorem bindAll_of_failed {env : Value} {k : Nat} {es : List Expression} {out out₁ : String}
    {fault : Fault} (h : Failed env k es out fault out₁) {xs : List Identifier} (frame : Fields)
    (hk : k ≤ xs.length) :
    Reaches (fun n => bindAll n frame xs es) ⟨env, out⟩ (.error fault) ⟨env, out₁⟩ := by
  induction h generalizing xs frame with
  | here hc =>
    cases xs with
    | nil => simp at hk
    | cons x xs => exact (value_of_failed hc).bind_of_error
  | later hc _ ih =>
    cases xs with
    | nil => simp at hk
    | cons x xs =>
      exact (Reaches.bind_of_ok (value_of_completes hc) (value_growing _)
        (bindAll_growing _ _ _)).2 (ih _ (by simpa using hk))

/-- Binding ends only if the arguments do. -/
theorem passed_or_failed {env : Value} {frame : Fields} {xs : List Identifier}
    {es : List Expression} {out : String} {r : Except Fault Fields} {m' : Machine}
    (h : Reaches (fun n => bindAll n frame xs es) ⟨env, out⟩ r m') :
    (∃ vs out₁, Passed env (min xs.length es.length) es out vs out₁) ∨
      ∃ fault out₁, Failed env (min xs.length es.length) es out fault out₁ := by
  induction xs generalizing es frame out with
  | nil => exact .inl ⟨[], out, by rw [List.length_nil, Nat.zero_min]; exact .done es out⟩
  | cons x xs ih =>
    cases es with
    | nil => exact .inl ⟨[], out, .done [] out⟩
    | cons e es =>
      rw [List.length_cons, List.length_cons, Nat.succ_min_succ]
      obtain ⟨v, m₁, hv, hrest⟩ | ⟨fault, hfails, -⟩ :=
        (Reaches.bind_iff (value_growing _) fun v => bindAll_growing _ _ _).1 h
      · obtain ⟨r₀, hc, hr₀⟩ := Reaches.map_iff.1 hv
        cases r₀ with
        | error fault => cases hr₀
        | ok c =>
          have henv := argument_environment hc
          rw [henv] at hc hrest
          obtain ⟨vs, out₁, hpassed⟩ | ⟨fault, out₁, hfailed⟩ := ih hrest
          · exact .inl ⟨_, out₁, .next hc hpassed⟩
          · exact .inr ⟨fault, out₁, .later hc hfailed⟩
      · obtain ⟨r₀, hc, hr₀⟩ := Reaches.map_iff.1 hfails
        cases r₀ with
        | error fault =>
          have henv := argument_environment hc
          rw [henv] at hc
          exact .inr ⟨fault, _, .here hc⟩
        | ok c => cases hr₀

/-! ## Calls -/

section Calls

variable {f : Expression} {es : List Expression} {xs : List Identifier} {body : Tree}
  {m m₁ : Machine} {c : Completion}

/-- The body in the frame of a call. -/
theorem body_growing (body : Tree) (frame : Fields) : Growing fun n =>
    (Action.environment >>= fun caller =>
      Action.inFrame (.record (Fields.set Name.parentField caller frame)) (eval n body)) :=
  .bind (.const _) fun _ => .inFrame _ (eval_growing body)

/-- A call whose callee is a function binds the parameters and goes on with the body. -/
theorem completes_call (hf : Completes (f.tree .returns) m (.ok c) m₁)
    (hc : Node.functionParts c.value = .ok (Identifier.listTree .returns xs, body))
    {r : Except Fault Completion} {m' : Machine} :
    Completes ((Expression.call f es).tree .returns) m r m' ↔
      Reaches (fun n => bindAll n [] xs es >>= fun frame => Action.environment >>= fun caller =>
        Action.inFrame (.record (Fields.set Name.parentField caller frame)) (eval n body))
        m₁ r m' := by
  have hstep : ∀ n, eval (n + 1) ((Expression.call f es).tree .returns) =
      value n (f.tree .returns) >>= fun v => liftM (Node.functionParts v) >>= fun parts =>
        enter n parts.1 parts.2 (listTree .returns es) := fun n => eval_call n [] f es
  have hrest : ∀ n, (liftM (Node.functionParts c.value) >>= fun parts =>
      enter n parts.1 parts.2 (listTree .returns es) : Action Completion) =
      bindAll n [] xs es >>= fun frame => Action.environment >>= fun caller =>
        Action.inFrame (.record (Fields.set Name.parentField caller frame)) (eval n body) := by
    intro n
    rw [hc]
    exact enter_listTree n xs body es
  have hgrowing : Growing fun n => (liftM (Node.functionParts c.value) >>= fun parts =>
      enter n parts.1 parts.2 (listTree .returns es) : Action Completion) := by
    rw [funext hrest]
    exact .bind (bindAll_growing _ _ _) fun frame => body_growing body frame
  rw [completes_iff, funext hstep, Reaches.bind_of_ok (value_of_completes hf) (value_growing _)
    hgrowing, funext hrest]

/-- Evaluating the callee leaves the environment as it is. -/
theorem callee_environment (hf : Completes (f.tree .returns) m (.ok c) m₁) :
    m₁ = ⟨m.environment, m₁.printed⟩ := by
  rw [Expression.tree_eq_listTree] at hf
  exact argument_environment hf

/-- A call whose parameters are bound goes on with the body, in the frame of the call. -/
theorem completes_call_of_bound (hf : Completes (f.tree .returns) m (.ok c) m₁)
    (hc : Node.functionParts c.value = .ok (Identifier.listTree .returns xs, body))
    {frame : Fields} {out : String}
    (hbound : Reaches (fun n => bindAll n [] xs es) m₁ (.ok frame) ⟨m.environment, out⟩)
    {r : Except Fault Completion} {m' : Machine} :
    Completes ((Expression.call f es).tree .returns) m r m' ↔
      ∃ after, Completes body
          ⟨.record (Fields.set Name.parentField m.environment frame), out⟩ r after ∧
        m' = ⟨m.environment, after.printed⟩ := by
  rw [completes_call hf hc, Reaches.bind_of_ok hbound (bindAll_growing _ _ _)
    (body_growing body frame)]
  exact Reaches.inFrame_iff

/-- A call whose parameters cannot be bound fails, and the body is not run. -/
theorem completes_call_of_error (hf : Completes (f.tree .returns) m (.ok c) m₁)
    (hc : Node.functionParts c.value = .ok (Identifier.listTree .returns xs, body))
    {fault : Fault} {m₂ : Machine}
    (hfails : Reaches (fun n => bindAll n [] xs es) m₁ (.error fault) m₂)
    {r : Except Fault Completion} {m' : Machine} :
    Completes ((Expression.call f es).tree .returns) m r m' ↔ r = .error fault ∧ m' = m₂ :=
  Ends.iff_eq ((completes_call hf hc).2 hfails.bind_of_error)

end Calls

/-- **Arguments of a call.** Let the callee be a function with the parameters `xs`.

- If there are as many arguments as parameters and none fails, the call completes as the body
  does in a new frame, and the caller's environment is back afterwards. The arguments are
  evaluated from left to right in the caller's environment.
- The frame holds the caller's environment as `$parent`, and each parameter with the value of its
  argument; of parameters with one name the last counts. It holds nothing else.
- With too few arguments all of them are evaluated, with too many only as many as there are
  parameters. If none of these fails the call fails, with an assertion.
- If one of these fails, the call fails as it does.
- There is no other way for the call to end.
- An argument has in its list the value that it has by itself. Only a function has its node there
  for its value, which holds the arguments behind it.

Where the call fails in one of these ways its outcome is the same for any body: the body is not
run, and the caller's environment is as it was. -/
theorem call_passes_arguments {f : Expression} {xs : List Identifier} {body : Tree}
    {m m₁ : Machine} {c : Completion} (hf : Completes (f.tree .returns) m (.ok c) m₁)
    (hc : Node.functionParts c.value = .ok (Identifier.listTree .returns xs, body))
    (es : List Expression) :
    (∀ vs out, xs.length = es.length → Passed m.environment es.length es m₁.printed vs out →
      ∀ r m', Completes ((Expression.call f es).tree .returns) m r m' ↔
        ∃ after, Completes body ⟨.record (callFrame m.environment xs vs), out⟩ r after ∧
          m' = ⟨m.environment, after.printed⟩) ∧
    (∀ vs name, Fields.get? name (callFrame m.environment xs vs) =
      if name = Name.parentField then some m.environment
      else ((xs.zip vs).reverse.find? (·.1.text == name)).map (·.2)) ∧
    (∀ vs out, es.length < xs.length → Passed m.environment es.length es m₁.printed vs out →
      ∀ r m', Completes ((Expression.call f es).tree .returns) m r m' ↔
        r = .error .violation ∧ m' = ⟨m.environment, out⟩) ∧
    (∀ vs out, xs.length < es.length → Passed m.environment xs.length es m₁.printed vs out →
      ∀ r m', Completes ((Expression.call f es).tree .returns) m r m' ↔
        r = .error .violation ∧ m' = ⟨m.environment, out⟩) ∧
    (∀ fault out, Failed m.environment (min xs.length es.length) es m₁.printed fault out →
      ∀ r m', Completes ((Expression.call f es).tree .returns) m r m' ↔
        r = .error fault ∧ m' = ⟨m.environment, out⟩) ∧
    (∀ r m', Completes ((Expression.call f es).tree .returns) m r m' →
      (∃ vs out, Passed m.environment (min xs.length es.length) es m₁.printed vs out) ∨
        ∃ fault out, Failed m.environment (min xs.length es.length) es m₁.printed fault out) ∧
    (∀ e rest, (∀ ps ss, e ≠ .function ps ss) →
      Completes (listTree .returns (e :: rest)) = Completes (e.tree .returns)) ∧
    (∀ ps ss rest n r n', Completes (listTree .returns (.function ps ss :: rest)) n r n' ↔
      r = .ok (.normal (listTree .returns (.function ps ss :: rest))) ∧ n' = n) := by
  have henv := callee_environment hf
  -- with the arguments passed, the numbers decide whether the parameters are bound
  have hbind : ∀ {k vs out}, k = min xs.length es.length →
      Passed m.environment k es m₁.printed vs out →
      Reaches (fun n => bindAll n [] xs es) m₁
        (if xs.length = es.length then .ok (bound [] xs vs) else .error .violation)
        ⟨m.environment, out⟩ := by
    intro k vs out hk h
    have hbound := bindAll_of_passed h [] hk
    rwa [← henv] at hbound
  refine ⟨fun vs out hlen h r m' => ?_, get?_callFrame m.environment xs,
    fun vs out hlen h r m' => ?_, fun vs out hlen h r m' => ?_, fun fault out h r m' => ?_,
    fun r m' h => ?_, fun e rest he => completes_listTree he rest,
    fun ps ss rest n r n' => completes_function⟩
  · have hbound := hbind (by rw [hlen, Nat.min_self]) h
    rw [if_pos hlen] at hbound
    exact completes_call_of_bound hf hc hbound
  · have hfails := hbind (Nat.min_eq_right (Nat.le_of_lt hlen)).symm h
    rw [if_neg (Nat.ne_of_gt hlen)] at hfails
    exact completes_call_of_error hf hc hfails
  · have hfails := hbind (Nat.min_eq_left (Nat.le_of_lt hlen)).symm h
    rw [if_neg (Nat.ne_of_lt hlen)] at hfails
    exact completes_call_of_error hf hc hfails
  · have hfails := bindAll_of_failed h [] (Nat.min_le_left _ _)
    rw [← henv] at hfails
    exact completes_call_of_error hf hc hfails
  · -- a call that ends has come to an end with its arguments
    rw [completes_call hf hc, henv] at h
    obtain ⟨frame, m₂, hbound, -⟩ | ⟨fault, hfails, -⟩ :=
      (Reaches.bind_iff (bindAll_growing _ _ _) (body_growing body)).1 h
    · exact passed_or_failed hbound
    · exact passed_or_failed hfails

/-- With `p` a function that ends the line and returns 5, and `g` one that returns `q`, the name of
both its parameters: the call `g(p(),6)` prints one line end and returns 6. The call `g(p())`
prints one too and fails. So does `g(p(),6,z)`, for the same reason: the unbound `z` is not
evaluated. -/
theorem call_passes_arguments_of_repeated :
    let q : Identifier := ⟨"q", by decide⟩
    let z : Expression := .name ⟨"z", by decide⟩
    let p : Expression := .name ⟨"p", by decide⟩
    let g : Expression := .name ⟨"g", by decide⟩
    let m : Machine := ⟨.record
      [("p", (Expression.function []
          [.print [], .giveBack (some (.number (.int 5)))]).tree .returns),
       ("g", (Expression.function [q, q] [.giveBack (some (.name q))]).tree .returns)], ""⟩
    let five : Expression := .call p []
    let six : Expression := .number (.int 6)
    Completes ((Expression.call g [five, six]).tree .returns) m (.ok ⟨.int 6, true⟩)
        ⟨m.environment, "\n"⟩ ∧
      Completes ((Expression.call g [five]).tree .returns) m (.error .violation)
        ⟨m.environment, "\n"⟩ ∧
      Completes ((Expression.call g [five, six, z]).tree .returns) m (.error .violation)
        ⟨m.environment, "\n"⟩ := by
  intro q z p g m five six
  have hcallee : Completes (g.tree .returns) m
      (.ok ⟨(Expression.function [q, q] [.giveBack (some (.name q))]).tree .returns, false⟩) m :=
    ⟨by simp, 9, rfl⟩
  have hparts : Node.functionParts
      ((Expression.function [q, q] [.giveBack (some (.name q))]).tree .returns) =
      .ok (Identifier.listTree .returns [q, q],
        (Statement.block [.giveBack (some (.name q))]).tree .returns) := rfl
  have hfive : ∀ rest, Completes (listTree .returns (five :: rest)) m (.ok ⟨.int 5, true⟩)
      ⟨m.environment, "\n"⟩ := by
    intro rest
    rw [completes_listTree (by simp [five])]
    exact ⟨by simp, 9, rfl⟩
  have hsix : ∀ rest, Completes (listTree .returns (six :: rest)) ⟨m.environment, "\n"⟩
      (.ok ⟨.int 6, false⟩) ⟨m.environment, "\n"⟩ := by
    intro rest
    rw [completes_listTree (by simp [six])]
    exact ⟨by simp, 9, rfl⟩
  obtain ⟨hequal, -⟩ := call_passes_arguments hcallee hparts [five, six]
  obtain ⟨-, -, hfew, -⟩ := call_passes_arguments hcallee hparts [five]
  obtain ⟨-, -, -, hmany, -⟩ := call_passes_arguments hcallee hparts [five, six, z]
  refine ⟨(hequal _ _ rfl (.next (hfive _) (.next (hsix _) (.done _ _))) _ _).2 ?_,
    (hfew _ _ (by decide) (.next (hfive _) (.done _ _)) _ _).2 ⟨rfl, rfl⟩,
    (hmany _ _ (by decide) (.next (hfive _) (.next (hsix _) (.done _ _))) _ _).2 ⟨rfl, rfl⟩⟩
  exact ⟨_, ⟨by simp, 9, rfl⟩, rfl⟩

/-- Let `f` return the first of its two parameters. The value of an empty function by itself is its
tree. As the first argument in `f(function(){},1)` it is another: what `f` returns has the
argument behind it in one field more. -/
theorem call_passes_function_with_rest :
    let g : Identifier := ⟨"g", by decide⟩
    let y : Identifier := ⟨"y", by decide⟩
    let f : Expression := .name ⟨"f", by decide⟩
    let empty : Expression := .function [] []
    let one : Expression := .number (.int 1)
    let m : Machine := ⟨.record
      [("f", (Expression.function [g, y] [.giveBack (some (.name g))]).tree .returns)], ""⟩
    Completes (empty.tree .returns) m (.ok (.normal (empty.tree .returns))) m ∧
      Completes ((Expression.call f [empty, one]).tree .returns) m
        (.ok ⟨listTree .returns [empty, one], true⟩) m ∧
      listTree .returns [empty, one] ≠ empty.tree .returns := by
  refine ⟨⟨by simp, 9, rfl⟩, ⟨by simp, 9, rfl⟩, ?_⟩
  rintro ⟨⟩

end Stepwise.Returning
