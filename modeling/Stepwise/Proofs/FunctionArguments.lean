import Stepwise.Proofs.Arguments
import Stepwise.Proofs.Chains
import Stepwise.Proofs.Sequencing

/-!
# Functions as arguments

The value of a function is its node, and in a list of arguments each node holds the one behind it
in its field `next`. So a function that is passed to another one arrives as it is only if it is the
last argument. Else the value comes with all arguments behind it, is not equal to the function by
itself and is printed with them (`function_argument_value`).

`functions` and `returns` pass arguments in the same way, but for what the first prints
(`announce`), and at both a call completes as the body of the function does:

- `pass`, `Passes`: the arguments of a call one after the other, bound to the parameters;
- `evaluate_call`, `ends_call`: a call at both stages.
-/

namespace Stepwise

open Action (Growing Reaches)
open Expression (listTree)
open Returning (bound callFrame)

variable {st : Stage}

/-! ## Binding -/

/-- What a call prints before it evaluates an argument: up to `functions` the parameter, the
argument and the name. -/
def announce (st : Stage) (parameter argument : Tree) : Action Unit :=
  if st.has .returns then pure ()
  else do
    Action.print ((← parameter.print) ++ " ")
    Action.printLine (← argument.print)
    Action.printLine (← (← parameter.field "value").print)

/-- How the stage binds parameters to arguments. -/
def binding (st : Stage) (part : Evaluator) (frame : Fields) (parameters arguments : List Tree) :
    Action (Fields × List Tree) :=
  if st.has .returns then Returning.bindArguments part frame parameters arguments
  else Structured.bindArguments part frame parameters arguments

/-- Binds parameters to the values of arguments; there have to be as many of the one as of
the other. -/
def pass (st : Stage) (n : Nat) : Fields → List Identifier → List Expression → Action Fields
  | frame, [], [] => pure frame
  | frame, x :: xs, e :: es => do
    announce st (Identifier.listTree st (x :: xs)) (listTree st (e :: es))
    let c ← evaluate st n .statement (listTree st (e :: es))
    pass st n (frame.set x.text c.value) xs es
  | _, _, _ => throw .violation

theorem binding_nil (part : Evaluator) (frame : Fields) (arguments : List Tree) :
    binding st part frame [] arguments = pure (frame, arguments) := by
  unfold binding
  split <;> rfl

/-- A parameter without an argument is a fault. -/
theorem binding_missing (part : Evaluator) (frame : Fields) (p : Tree) (ps : List Tree) :
    binding st part frame (p :: ps) [] = throw .violation := by
  unfold binding
  split <;> rfl

/-- One parameter is bound to the value of one argument. -/
theorem binding_cons (part : Evaluator) (frame : Fields) (x : Identifier) (xs : List Identifier)
    (ps : List Tree) (a : Tree) (as : List Tree) :
    binding st part frame (Identifier.listTree st (x :: xs) :: ps) (a :: as) = (do
      announce st (Identifier.listTree st (x :: xs)) a
      let c ← part .statement a
      binding st part (frame.set x.text c.value) ps as) := by
  unfold binding announce
  cases st.has .returns with
  | true =>
    simp only [if_true, Returning.bindArguments, Returning.valueOf, bind_assoc, pure_bind,
      Identifier.listTree_value]
    rfl
  | false =>
    simp only [Bool.false_eq_true, if_false, Structured.bindArguments, bind_assoc,
      Identifier.listTree_value]
    rfl

/-- Binding along the chains of a call is binding along its lists. -/
theorem binding_listTree {β : Type} (n : Nat) (f : Fields → Action β) :
    ∀ (frame : Fields) (xs : List Identifier) (es : List Expression),
      (binding st (evaluate st n) frame (Tree.members (Identifier.listTree st xs))
        (Tree.members (listTree st es)) >>= fun p =>
          if p.2.isEmpty then f p.1 else throw .violation) =
      pass st n frame xs es >>= f
  | frame, [], [] => by
    exact congrArg (· >>= _) (binding_nil (evaluate st n) frame [])
  | frame, [], e :: es => by
    rw [Expression.members_listTree_cons]
    exact congrArg (· >>= _) (binding_nil (evaluate st n) frame _)
  | frame, x :: xs, [] => by
    rw [Identifier.members_listTree_cons]
    exact congrArg (· >>= _) (binding_missing (evaluate st n) frame _ _)
  | frame, x :: xs, e :: es => by
    rw [Identifier.members_listTree_cons, Expression.members_listTree_cons, binding_cons]
    simp only [pass, bind_assoc]
    refine bind_congr fun _ => bind_congr fun c => ?_
    exact binding_listTree n f (frame.set x.text c.value) xs es

theorem pass_growing : ∀ (frame : Fields) (xs : List Identifier) (es : List Expression),
    Growing fun n => pass st n frame xs es
  | _, [], [] | _, [], _ :: _ | _, _ :: _, [] => .const _
  | _, _ :: xs, _ :: es =>
    .bind (.const _) fun _ => .bind (evaluate_growing st .statement _) fun _ => pass_growing _ xs es

/-- The arguments of a call are evaluated from left to right, each as it stands in its list, and
none of them fails: their values, and the machine before and after. -/
inductive Passes (st : Stage) :
    List Identifier → List Expression → Machine → List Value → Machine → Prop
  | done (m : Machine) : Passes st [] [] m [] m
  | next {x : Identifier} {xs : List Identifier} {e : Expression} {es : List Expression}
      {m m₁ m₂ m' : Machine} {c : Completion} {vs : List Value} :
      announce st (Identifier.listTree st (x :: xs)) (listTree st (e :: es)) m = (.ok (), m₁) →
      Ends st .statement (listTree st (e :: es)) m₁ (.ok c) m₂ → Passes st xs es m₂ vs m' →
      Passes st (x :: xs) (e :: es) m (c.value :: vs) m'

/-- Parameters are bound just if the arguments pass. -/
theorem reaches_pass {xs : List Identifier} {es : List Expression} {frame frame' : Fields}
    {m m' : Machine} : Reaches (fun n => pass st n frame xs es) m (.ok frame') m' ↔
      ∃ vs, Passes st xs es m vs m' ∧ frame' = bound frame xs vs := by
  -- by induction on the parameters; both sides fail unless there are as many arguments
  induction xs generalizing es frame m with
  | nil =>
    cases es with
    | nil =>
      constructor
      · intro h
        obtain ⟨hframe, rfl⟩ := Reaches.pure_iff.1 h
        cases hframe
        exact ⟨[], .done m', rfl⟩
      · rintro ⟨_, ⟨⟩, rfl⟩
        exact Reaches.pure_iff.2 ⟨rfl, rfl⟩
    | cons e es =>
      constructor
      · intro h
        cases (Reaches.const_iff.1 h).2
      · rintro ⟨_, ⟨⟩, -⟩
  | cons x xs ih =>
    cases es with
    | nil =>
      constructor
      · intro h
        cases (Reaches.const_iff.1 h).2
      · rintro ⟨_, ⟨⟩, -⟩
    | cons e es =>
      have hrest : ∀ c : Completion, Growing fun n => pass st n (frame.set x.text c.value) xs es :=
        fun c => pass_growing _ xs es
      have hvalue := evaluate_growing st .statement (listTree st (e :: es))
      constructor
      · intro h
        obtain ⟨_, m₁, hannounce, h⟩ | ⟨_, -, ⟨⟩⟩ :=
          (Reaches.bind_iff (.const _) fun _ => .bind hvalue hrest).1 h
        obtain ⟨c, m₂, hc, h⟩ | ⟨_, -, ⟨⟩⟩ := (Reaches.bind_iff hvalue hrest).1 h
        obtain ⟨vs, hpasses, rfl⟩ := ih.1 h
        exact ⟨c.value :: vs, .next (Reaches.const_iff.1 hannounce).2 hc hpasses, rfl⟩
      · rintro ⟨_, hpasses, rfl⟩
        cases hpasses with
        | next hannounce hc hpasses =>
          refine (Reaches.bind_of_ok (Reaches.const_iff.2 ⟨by simp, hannounce⟩) (.const _)
            (.bind hvalue hrest)).2 ?_
          exact (Reaches.bind_of_ok hc hvalue (hrest _)).2 (ih.2 ⟨_, hpasses, rfl⟩)

/-! ## Calls -/

/-- The body of a function in the frame of a call. -/
def runBody (st : Stage) (n : Nat) (body : Tree) (frame : Fields) : Action Completion := do
  let caller ← Action.environment
  Action.inFrame (.record (Fields.set Name.parentField caller frame))
    (evaluate st n .statement body)

theorem runBody_growing (body : Tree) (frame : Fields) : Growing fun n => runBody st n body frame :=
  .bind (.const _) fun _ => .inFrame _ (evaluate_growing st .statement body)

/-- `functions` keeps only the value of a completion, but there no body returns. -/
theorem runBody_functions (n : Nat) (body : Tree) (frame : Fields) :
    ((do
      let caller ← Action.environment
      let c ← Action.inFrame (.record (Fields.set Name.parentField caller frame))
        (evaluate .functions n .statement body)
      return c.value) >>= fun v => pure (.normal v)) = runBody .functions n body frame := by
  simp only [bind_assoc, pure_bind]
  refine bind_congr fun caller => ?_
  have hquiet : Action.Quiet (Action.inFrame (.record (Fields.set Name.parentField caller frame))
      (evaluate .functions n .statement body)) :=
    fun m => evaluate_quiet rfl n .statement body ⟨_, m.printed⟩
  refine Eq.trans (hquiet.bind_congr fun c hc => ?_) (bind_pure _)
  rw [Completion.normal, ← hc]

/-- What becomes of a call when the parts of the function are known: the arguments are bound, and
then the body runs. The chains of parameters and arguments have to end together. -/
def entered (st : Stage) (n : Nat) (function : Value × Tree) (arguments : Tree) :
    Action Completion := do
  let p ← binding st (evaluate st n) [] (Tree.members function.1) (Tree.members arguments)
  if (Tree.terminator function.1).isNull && p.2.isEmpty && (Tree.terminator arguments).isNull then
    runBody st n function.2 p.1
  else throw .violation

/-- A call of a function whose parameters are a list of names. -/
theorem entered_listTree (n : Nat) (xs : List Identifier) (body : Tree) (es : List Expression) :
    entered st n (Identifier.listTree st xs, body) (listTree st es) =
      pass st n [] xs es >>= runBody st n body := by
  rw [← binding_listTree]
  unfold entered
  simp only [Identifier.terminator_listTree, Expression.terminator_listTree, Value.isNull,
    Bool.true_and, Bool.and_true]

/-- **A call at both stages** evaluates the callee and enters its function. -/
theorem evaluate_call (hst : st.has .functions = true) (n : Nat) (mode : Mode) (f : Expression)
    (es : List Expression) : evaluate st (n + 1) mode ((Expression.call f es).tree st) = (do
      let c ← evaluate st n .expression (f.tree st)
      let function ← Node.functionParts c.value
      entered st n function (listTree st es)) := by
  cases st with
  | returns =>
    have hcall : evaluate .returns (n + 1) mode ((Expression.call f es).tree .returns) =
        Returning.call (evaluate .returns n) ((Expression.call f es).tree .returns) := rfl
    have hcallee : Node.callField "expression" ((Expression.call f es).tree .returns) =
        .ok (f.tree .returns) := rfl
    have harguments : Node.callField "arguments" ((Expression.call f es).tree .returns) =
        .ok (listTree .returns es) := rfl
    rw [hcall, Returning.evaluate_mode]
    simp only [Returning.call, Returning.valueOf, bind_assoc, pure_bind, hcallee, harguments,
      Action.liftM_ok_bind]
    refine bind_congr fun c => bind_congr fun function => bind_congr fun p => ?_
    cases (Tree.terminator function.1).isNull <;> cases p.2.isEmpty <;>
      cases (Tree.terminator (listTree .returns es)).isNull <;> rfl
  | functions =>
    -- the node of a call has another name for the callee here, and the completion is made anew
    have hcall : evaluate .functions (n + 1) mode ((Expression.call f es).tree .functions) =
        Structured.call (evaluate .functions n) ((Expression.call f es).tree .functions) >>=
          fun v => pure (.normal v) := by
      cases mode <;> rfl
    have hcallee : Node.callField "identifier" ((Expression.call f es).tree .functions) =
        .ok (f.tree .functions) := rfl
    have harguments : Node.callField "arguments" ((Expression.call f es).tree .functions) =
        .ok (listTree .functions es) := rfl
    rw [hcall]
    simp only [Structured.call, bind_assoc, hcallee, harguments, Action.liftM_ok_bind]
    refine bind_congr fun c => bind_congr fun function => bind_congr fun p => ?_
    rw [← runBody_functions]
    cases (Tree.terminator function.1).isNull <;> cases p.2.isEmpty <;>
      cases (Tree.terminator (listTree .functions es)).isNull <;> rfl
  | expressions | assignments | booleans | conditions | blocks | scopes => cases hst

section Calls

variable {mode : Mode} {f : Expression} {es : List Expression} {xs : List Identifier} {body : Tree}
  {m m₁ m' : Machine} {c : Completion} {r : Except Fault Completion}
  (hst : st.has .functions = true) (hf : Ends st .expression (f.tree st) m (.ok c) m₁)
  (hc : Node.functionParts c.value = .ok (Identifier.listTree st xs, body))
include hst hf hc

/-- A call whose callee is a function passes its arguments and runs the body. -/
theorem ends_call : Ends st mode ((Expression.call f es).tree st) m r m' ↔
    Reaches (fun n => pass st n [] xs es >>= runBody st n body) m₁ r m' := by
  have hrest : ∀ n, (liftM (Node.functionParts c.value) >>= fun function =>
      entered st n function (listTree st es) : Action Completion) =
      pass st n [] xs es >>= runBody st n body := by
    intro n
    rw [hc]
    exact entered_listTree n xs body es
  have hgrowing : Growing fun n => pass st n [] xs es >>= runBody st n body :=
    .bind (pass_growing _ _ _) (runBody_growing body)
  rw [Ends.eq_reaches fun n => evaluate_call hst n mode f es, Reaches.bind_of_ok hf
    (evaluate_growing _ _ _) (by rw [funext hrest]; exact hgrowing), funext hrest]

/-- If the arguments pass, a call comes to what the body does in the frame of the call. -/
theorem ends_call_of_passes {vs : List Value} {m₂ : Machine} (h : Passes st xs es m₁ vs m₂) :
    Ends st mode ((Expression.call f es).tree st) m r m' ↔
      ∃ after, Ends st .statement body
          ⟨.record (callFrame m₂.environment xs vs), m₂.printed⟩ r after ∧
        m' = ⟨m₂.environment, after.printed⟩ := by
  have hbound : Reaches (fun n => pass st n [] xs es) m₁ (.ok (bound [] xs vs)) m₂ :=
    reaches_pass.2 ⟨vs, h, rfl⟩
  rw [ends_call hst hf hc, Reaches.bind_of_ok hbound (pass_growing _ _ _) (runBody_growing _ _)]
  exact Reaches.inFrame_iff

/-- The arguments of a call that completes have passed. -/
theorem passes_of_ends {d : Completion}
    (h : Ends st mode ((Expression.call f es).tree st) m (.ok d) m') :
    ∃ vs m₂, Passes st xs es m₁ vs m₂ := by
  rw [ends_call hst hf hc, Reaches.bind_iff (pass_growing _ _ _) (runBody_growing body)] at h
  obtain ⟨frame, m₂, hframe, -⟩ | ⟨_, -, ⟨⟩⟩ := h
  obtain ⟨vs, hpasses, -⟩ := reaches_pass.1 hframe
  exact ⟨vs, m₂, hpasses⟩

end Calls

/-! ## Functions -/

/-- The value of a function is its node, with whatever stands behind it in a list. -/
theorem ends_function (hst : st.has .functions = true) {mode : Mode} {ps : List Identifier}
    {ss : List Statement} {rest : List Expression} {m m' : Machine} {r : Except Fault Completion} :
    Ends st mode (listTree st (.function ps ss :: rest)) m r m' ↔
      r = .ok (.normal (listTree st (.function ps ss :: rest))) ∧ m' = m := by
  have hstep : ∀ n, evaluate st (n + 1) mode (listTree st (.function ps ss :: rest)) =
      pure (.normal (listTree st (.function ps ss :: rest))) := by
    intro n
    cases st with
    | functions | returns => cases mode <;> cases rest <;> rfl
    | expressions | assignments | booleans | conditions | blocks | scopes => cases hst
  rw [Ends.eq_reaches hstep]
  exact Reaches.pure_iff

section Argument

variable {ps : List Identifier} {ss : List Statement} {before after : List Expression}

/-- A function is bound as the node that it is in its list. -/
theorem Passes.value_of_function (hst : st.has .functions = true) {xs : List Identifier}
    {m m' : Machine} {vs : List Value}
    (h : Passes st xs (before ++ .function ps ss :: after) m vs m') :
    ∃ vs₁ vs₂, vs = vs₁ ++ listTree st (.function ps ss :: after) :: vs₂ ∧
      vs₁.length = before.length := by
  induction before generalizing xs m vs with
  | nil =>
    cases h with
    | next _ hc _ =>
      obtain ⟨hvalue, -⟩ := (ends_function hst).1 hc
      cases hvalue
      exact ⟨[], _, rfl, rfl⟩
  | cons e before ih =>
    cases h with
    | next _ _ hrest =>
      obtain ⟨vs₁, vs₂, rfl, hlength⟩ := ih hrest
      exact ⟨_ :: vs₁, vs₂, rfl, by simp [hlength]⟩

/-- In the frame of a call a parameter stands for the value at its place, unless a later parameter
has its name. -/
theorem resolve_callFrame {xs₁ xs₂ : List Identifier} {x : Identifier} {vs₁ vs₂ : List Value}
    (hlength : xs₁.length = vs₁.length) (hx : x ∉ xs₂) (caller v : Value) :
    Name.resolve x.text (.record (callFrame caller (xs₁ ++ x :: xs₂) (vs₁ ++ v :: vs₂))) =
      .ok v := by
  have hlater : (xs₂.zip vs₂).reverse.find? (Key.text ·.1.text == Key.text x.text) = none := by
    simp only [List.find?_eq_none, List.mem_reverse, beq_iff_eq, Key.text.injEq]
    intro p hp heq
    exact hx (Identifier.ext_text heq ▸ (List.of_mem_zip hp).1)
  rw [Name.resolve_record, Returning.get?_callFrame, if_neg (x.text_ne_parent ∘ Key.text.inj),
    List.zip_append hlength, List.zip_cons_cons, List.reverse_append, List.reverse_cons,
    List.find?_append, List.find?_append, hlater]
  simp

/-- A function in a list has one field more, unless it is the last. -/
theorem listTree_function_cons (e : Expression) (rest : List Expression) :
    listTree st (.function ps ss :: e :: rest) = .record [("tag", .text "function"),
      ("parameters", Identifier.listTree st ps), ("body", Tree.block (Statement.trees st ss)),
      ("next", listTree st (e :: rest))] :=
  rfl

/-- A function in a list of arguments is the function alone only as the last one. -/
theorem listTree_function_eq_iff :
    listTree st (.function ps ss :: after) = (Expression.function ps ss).tree st ↔ after = [] := by
  cases after with
  | nil => exact ⟨fun _ => rfl, fun _ => rfl⟩
  | cons e rest =>
    rw [listTree_function_cons]
    simp [Expression.tree, Tree.function, Tree.node]

/-- With arguments behind it a function is written differently. -/
theorem written_listTree_function (hafter : after ≠ []) :
    (listTree st (.function ps ss :: after)).written ≠
      ((Expression.function ps ss).tree st).written := by
  cases after with
  | nil => exact absurd rfl hafter
  | cons e rest =>
    -- one more field makes a longer text
    have hfour : ∀ a b c d : String,
        ", ".intercalate [a, b, c, d] = ", ".intercalate [a, b, c] ++ ", " ++ d :=
      fun _ _ _ _ => rfl
    have hcomma : ", ".length = 2 := rfl
    intro heq
    have hlength := congrArg String.length heq
    simp only [listTree_function_cons, Expression.tree, Tree.function, Tree.node, Value.written,
      Value.shown, Value.shownFields, hfour, String.length_append] at hlength
    omega

/-- With arguments behind it a function is not equal to the function alone. -/
theorem equal_listTree_function (hafter : after ≠ []) :
    Operator.apply .equal (listTree st (.function ps ss :: after))
        ((Expression.function ps ss).tree st) = .ok (.int 0) ∧
      Operator.apply .equal ((Expression.function ps ss).tree st)
        (listTree st (.function ps ss :: after)) = .ok (.int 0) := by
  cases after with
  | nil => exact absurd rfl hafter
  | cons e rest =>
    rw [listTree_function_cons]
    exact ⟨rfl, rfl⟩

end Argument

/-- **A function arrives with the arguments behind it.** From `functions` on the value of a function
by itself is its node. Let a function stand in a call, with other arguments before and behind it,
and let `x` be the parameter at its place, with no later one of that name.

- If the arguments of the call pass, as those of every call that completes have, the call comes to
  what the body does in the frame of the call. There `x` stands for the node of the function with
  the arguments behind it.
- This is the value of the function by itself just if no argument is behind it.
- Else `==` gives 0 for the two values, and the texts that are printed for them differ. -/
theorem function_argument_value (hst : st.has .functions = true) (ps : List Identifier)
    (ss : List Statement) (before after : List Expression) :
    (∀ mode m r m', Ends st mode ((Expression.function ps ss).tree st) m r m' ↔
      r = .ok (.normal ((Expression.function ps ss).tree st)) ∧ m' = m) ∧
    (∀ f xs₁ x xs₂ body m c m₁, Ends st .expression (f.tree st) m (.ok c) m₁ →
      Node.functionParts c.value = .ok (Identifier.listTree st (xs₁ ++ x :: xs₂), body) →
      xs₁.length = before.length → x ∉ xs₂ →
      (∀ vs m₂, Passes st (xs₁ ++ x :: xs₂) (before ++ .function ps ss :: after) m₁ vs m₂ →
        Name.resolve x.text (.record (callFrame m₂.environment (xs₁ ++ x :: xs₂) vs)) =
            .ok (listTree st (.function ps ss :: after)) ∧
          ∀ mode r m', Ends st mode
              ((Expression.call f (before ++ .function ps ss :: after)).tree st) m r m' ↔
            ∃ last, Ends st .statement body
                ⟨.record (callFrame m₂.environment (xs₁ ++ x :: xs₂) vs), m₂.printed⟩ r last ∧
              m' = ⟨m₂.environment, last.printed⟩) ∧
      ∀ mode d m', Ends st mode
          ((Expression.call f (before ++ .function ps ss :: after)).tree st) m (.ok d) m' →
        ∃ vs m₂, Passes st (xs₁ ++ x :: xs₂) (before ++ .function ps ss :: after) m₁ vs m₂) ∧
    (listTree st (.function ps ss :: after) = (Expression.function ps ss).tree st ↔ after = []) ∧
    (after ≠ [] →
      Operator.apply .equal (listTree st (.function ps ss :: after))
          ((Expression.function ps ss).tree st) = .ok (.int 0) ∧
        Operator.apply .equal ((Expression.function ps ss).tree st)
          (listTree st (.function ps ss :: after)) = .ok (.int 0) ∧
        (listTree st (.function ps ss :: after)).written ≠
          ((Expression.function ps ss).tree st).written) := by
  refine ⟨?_, fun f xs₁ x xs₂ body m c m₁ hf hc hplace hx => ?_,
    listTree_function_eq_iff, fun hafter => ?_⟩
  · intro mode m r m'
    rw [Expression.tree_eq_listTree]
    exact ends_function hst
  · refine ⟨fun vs m₂ hpasses => ?_, fun mode d m' h => passes_of_ends hst hf hc h⟩
    refine ⟨?_, fun mode r m' => ends_call_of_passes hst hf hc hpasses⟩
    obtain ⟨vs₁, vs₂, rfl, hlength⟩ := hpasses.value_of_function hst
    exact resolve_callFrame (hplace.trans hlength.symm) hx _ _
  · obtain ⟨hleft, hright⟩ := equal_listTree_function hafter
    exact ⟨hleft, hright, written_listTree_function hafter⟩

/-- With `h` a function that gives back the first of its two parameters: `h(function(){},4)` gives
back the node of the function with the 4 behind it. -/
theorem function_argument_value_of_first :
    let a : Identifier := ⟨"a", by decide⟩
    let b : Identifier := ⟨"b", by decide⟩
    let h : Expression := .name ⟨"h", by decide⟩
    let four : Expression := .number (.int 4)
    let empty : Expression := .function [] []
    let m : Machine := ⟨.record
      [("h", (Expression.function [a, b] [.giveBack (some (.name a))]).tree .returns)], ""⟩
    Ends .returns .statement ((Expression.call h [empty, four]).tree .returns) m
        (.ok ⟨listTree .returns [empty, four], true⟩) m ∧
      Ends .returns .statement (empty.tree .returns) m (.ok (.normal (empty.tree .returns))) m ∧
      Operator.apply .equal (listTree .returns [empty, four]) (empty.tree .returns) =
        .ok (.int 0) := by
  intro a b h four empty m
  have hstage : Stage.has .returns .functions = true := rfl
  obtain ⟨halone, hcalled, -, hdiffer⟩ := function_argument_value hstage [] [] [] [four]
  have hcallee : Ends .returns .expression (h.tree .returns) m
      (.ok (.normal ((Expression.function [a, b] [.giveBack (some (.name a))]).tree .returns))) m :=
    ⟨by simp, 9, rfl⟩
  have hpasses : Passes .returns [a, b] [empty, four] m
      [listTree .returns [empty, four], .int 4] m :=
    .next (c := .normal (listTree .returns [empty, four])) rfl
      ((ends_function hstage).2 ⟨rfl, rfl⟩)
      (.next (c := .normal (.int 4)) rfl ⟨by simp, 9, rfl⟩ (.done m))
  obtain ⟨hpassed, -⟩ := hcalled h [] a [b] _ m _ m hcallee rfl rfl (by decide)
  obtain ⟨-, hcall⟩ := hpassed _ m hpasses
  refine ⟨(hcall _ _ _).2 ⟨_, ⟨by simp, 9, rfl⟩, rfl⟩, (halone _ _ _ _).2 ⟨rfl, rfl⟩, ?_⟩
  exact (hdiffer (by simp)).1

/-- Let `v` be an empty function. Then `f(function(){},1)` does not find `v` in its first parameter:
the comparison of the two gives 0. But `k(1,function(){})`, which has the parameters the other way
round, gives 1. -/
theorem function_argument_unequal :
    let g : Identifier := ⟨"g", by decide⟩
    let y : Identifier := ⟨"y", by decide⟩
    let f : Expression := .name ⟨"f", by decide⟩
    let k : Expression := .name ⟨"k", by decide⟩
    let empty : Expression := .function [] []
    let one : Expression := .number (.int 1)
    let found : Statement := .giveBack (some (.binary .equal (.name g) (.name ⟨"v", by decide⟩)))
    let m : Machine := ⟨.record [("v", empty.tree .returns),
      ("f", (Expression.function [g, y] [found]).tree .returns),
      ("k", (Expression.function [y, g] [found]).tree .returns)], ""⟩
    Ends .returns .statement ((Expression.call f [empty, one]).tree .returns) m
        (.ok ⟨.int 0, true⟩) m ∧
      Ends .returns .statement ((Expression.call k [one, empty]).tree .returns) m
        (.ok ⟨.int 1, true⟩) m :=
  ⟨⟨by simp, 9, rfl⟩, ⟨by simp, 9, rfl⟩⟩

end Stepwise
