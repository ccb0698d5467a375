import Stepwise.Proofs.Nodes
import Stepwise.Proofs.ParserImage

/-!
# Effects stay in the current frame

Evaluating at the last stage changes no frame but the current one, and in it only
the names that the statement itself assigns (`effects_stay_in_frame`). An
expression changes nothing at all: what a function assigns goes to the frame of
its call, which is gone afterwards.

- `Assigned names env env'`: `env'` is `env` after assignments to some of `names`;
- `Confined names x`: whether it fails or not, the action `x` does to the
  environment no more than that. Sequences, loops and calls of confined actions
  are confined;
- `expression_confined`, `statement_confined`: the evaluator is, by induction on
  the budget with one case for each kind of syntax.
-/

namespace Stepwise

/-! ## Environments after assignments -/

/-- The second environment is the first after assignments to some of the names. -/
inductive Assigned (names : List Identifier) : Value → Value → Prop where
  | refl (env : Value) : Assigned names env env
  | set {env : Value} {fields : Fields} {x : Identifier} (v : Value) (hx : x ∈ names)
      (h : Assigned names env (.record fields)) :
      Assigned names env (.record (Fields.set x.text v fields))

namespace Assigned

variable {names names' : List Identifier} {env env₁ env₂ : Value}

/-- Assignments after assignments. -/
theorem trans (h₁ : Assigned names env env₁) (h₂ : Assigned names env₁ env₂) :
    Assigned names env env₂ := by
  induction h₂ with
  | refl => exact h₁
  | set v hx _ ih => exact .set v hx ih

/-- Assignments to some names are assignments to more. -/
theorem mono (hsub : names ⊆ names') (h : Assigned names env env₁) : Assigned names' env env₁ := by
  induction h with
  | refl => exact .refl _
  | set v hx _ ih => exact .set v (hsub hx) ih

/-- Without names to assign, nothing changes. -/
theorem eq_of_nil (h : Assigned [] env env₁) : env₁ = env := by
  cases h with
  | refl => rfl
  | set v hx => cases hx

/-- A field that is not assigned is as it was. -/
theorem field_eq {name : String} (hname : ∀ x ∈ names, x.text ≠ name)
    (h : Assigned names env env₁) : env₁.field name = env.field name := by
  induction h with
  | refl => rfl
  | @set fields x v hx _ ih =>
    rw [← ih]
    simp only [Value.field, Fields.get?_set_of_text_ne v (hname x hx).symm]

end Assigned

namespace Name

/-- The frame so many steps up the chain of enclosing frames. -/
def ancestor : Nat → Value → Except Fault Value
  | 0, env => .ok env
  | k + 1, env => do ancestor k (← env.field parentField)

end Name

/-- No assignment reaches an enclosing frame. -/
theorem Assigned.ancestor_eq {names : List Identifier} {env env' : Value}
    (h : Assigned names env env') (k : Nat) :
    Name.ancestor (k + 1) env' = Name.ancestor (k + 1) env := by
  have hparent : env'.field Name.parentField = env.field Name.parentField :=
    h.field_eq fun x _ => x.text_ne_parent
  simp only [Name.ancestor, hparent]

/-- The caller still stands above the frame of its call. -/
theorem Assigned.parent_eq {names : List Identifier} {caller env' : Value} {frame : Fields}
    (h : Assigned names (.record (Fields.set Name.parentField caller frame)) env') :
    env'.field Name.parentField = .ok caller := by
  rw [h.field_eq fun x _ => x.text_ne_parent]
  simp only [Value.field, Fields.get?_set_self]

/-! ## Confined actions -/

/-- The action does no more to the environment than to assign some of the names. -/
def Confined {α : Type} (names : List Identifier) (x : Action α) : Prop :=
  ∀ m, Assigned names m.environment (x m).2.environment

namespace Confined

variable {α β : Type} {names names' : List Identifier}

theorem assigned {x : Action α} (h : Confined names x) {m m' : Machine} {r : Except Fault α}
    (hx : x m = (r, m')) : Assigned names m.environment m'.environment := by
  have hm := h m
  rwa [hx] at hm

theorem pure (a : α) : Confined names (pure a : Action α) := fun _ => .refl _

theorem throw (e : Fault) : Confined names (throw e : Action α) := fun _ => .refl _

theorem lift (x : Except Fault α) : Confined names (liftM x : Action α) := fun _ => .refl _

theorem environment : Confined names Action.environment := fun _ => .refl _

theorem print (s : String) : Confined names (Action.print s) := fun _ => .refl _

/-- What happens in another frame is gone when the action comes back. -/
theorem inFrame (frame : Value) (x : Action α) : Confined names (Action.inFrame frame x) :=
  fun _ => .refl _

/-- One action after the other, each confined to the same names. -/
theorem bind {x : Action α} {f : α → Action β} (hx : Confined names x)
    (hf : ∀ a, Confined names (f a)) : Confined names (x >>= f) := by
  intro m
  have h₁ := hx m
  cases hxm : x m with
  | mk r m₁ =>
    rw [hxm] at h₁
    cases r with
    | ok a =>
      rw [Action.bind_ok f hxm]
      exact h₁.trans (hf a m₁)
    | error e =>
      rw [Action.bind_error f hxm]
      exact h₁

theorem ite {c : Prop} [Decidable c] {x y : Action α} (hx : Confined names x)
    (hy : Confined names y) : Confined names (if c then x else y) := by
  split
  · exact hx
  · exact hy

theorem mono (hsub : names ⊆ names') {x : Action α} (h : Confined names x) :
    Confined names' x :=
  fun m => (h m).mono hsub

theorem of_nil {x : Action α} (h : Confined [] x) : Confined names x :=
  h.mono (List.nil_subset _)

/-- An assignment changes the name it assigns; in something that is no frame it fails. -/
theorem assign (x : Identifier) (v : Value) : Confined [x] (Action.assign (.text x.text) v) := by
  rintro ⟨env, printed⟩
  cases env with
  | record fields => exact .set v (List.mem_singleton.2 rfl) (.refl _)
  | null | bool | int | float | text | list => exact .refl _

/-- A loop is confined to what its condition and its body assign. -/
theorem repeatWhile {condition body : Action Completion} (hc : Confined names condition)
    (hb : Confined names body) : ∀ n : Nat, Confined names (Node.repeatWhile condition body n)
  | 0 => .throw _
  | n + 1 => by
    unfold Node.repeatWhile
    refine .bind hc fun c => .ite ?_ (.pure _)
    exact .bind hb fun done => .ite (.pure _) (repeatWhile hc hb n)

end Confined

namespace Returning

open Expression (listTree)

/-! ## Expressions -/

theorem value_confined {n : Nat} {t : Tree} {names : List Identifier}
    (h : Confined names (eval n t)) : Confined names (value n t) :=
  .bind h fun _ => .pure _

/-- Binding arguments is confined if evaluating them is; the parameters may be anything. -/
theorem bindArguments_confined {n : Nat}
    (h : ∀ (e : Expression) (rest : List Expression),
      Confined [] (eval n (listTree .returns (e :: rest)))) :
    ∀ (frame : Fields) (ps : List Tree) (es : List Expression),
      Confined [] (bindArguments (evaluate .returns n) frame ps
        (Tree.members (listTree .returns es)))
  | _, [], _ => .pure _
  | _, _ :: _, [] => .throw _
  | frame, p :: ps, e :: es => by
    rw [Expression.members_listTree_cons]
    refine .bind (value_confined (h e es)) fun v => .bind (.lift _) fun name => ?_
    exact .bind (.lift _) fun key => bindArguments_confined h _ ps es

/-- A call leaves the environment as it is: its frame is dropped, whatever happens in it. -/
theorem enter_confined {n : Nat}
    (h : ∀ (e : Expression) (rest : List Expression),
      Confined [] (eval n (listTree .returns (e :: rest)))) (parameters body : Tree)
    (es : List Expression) : Confined [] (enter n parameters body (listTree .returns es)) := by
  refine .bind (bindArguments_confined h [] (Tree.members parameters) es) fun bound => ?_
  refine .ite (.throw _) (.ite (.throw _) ?_)
  exact .bind .environment fun caller => .inFrame _ _

/-- **An expression leaves the environment as it is**, calls of any depth included. -/
theorem expression_confined : ∀ (n : Nat) (e : Expression) (rest : List Expression),
    Confined [] (eval n (listTree .returns (e :: rest)))
  | 0, _, _ => .throw _
  | n + 1, e, rest => by
    -- operands are evaluated with the smaller budget
    have part : ∀ e : Expression, Confined [] (value n (e.tree .returns)) :=
      fun e => value_confined (expression_confined n e [])
    cases e with
    | number v => rw [eval_number]; exact .pure _
    | boolean b => rw [eval_boolean]; exact .throw _
    | name x => rw [eval_name]; exact .bind .environment fun _ => .bind (.lift _) fun _ => .pure _
    | function ps body => rw [eval_function]; exact .pure _
    | negate e => rw [eval_negate]; exact .bind (part e) fun _ => .bind (.lift _) fun _ => .pure _
    | not e => rw [eval_not]; exact .bind (part e) fun _ => .pure _
    | binary op l r =>
      rw [eval_binary]
      exact .bind (part l) fun _ => .bind (part r) fun _ => .bind (.lift _) fun _ => .pure _
    -- the body may assign, but in the frame of the call
    | call f es =>
      rw [eval_call]
      refine .bind (part f) fun v => .bind (.lift _) fun ⟨parameters, body⟩ => ?_
      exact enter_confined (expression_confined n) parameters body es

/-! ## Statements -/

/-- Printing assigns nothing. -/
theorem printAll_confined {n : Nat}
    (h : ∀ (e : Expression) (rest : List Expression),
      Confined [] (eval n (listTree .returns (e :: rest)))) :
    ∀ es : List Expression,
      Confined [] (Node.printAll (evaluate .returns n) (Tree.members (listTree .returns es)))
  | [] => .print _
  | e :: es => by
    rw [printAll_cons]
    refine .bind (value_confined (h e es)) fun v => .bind (.lift _) fun text => ?_
    exact .bind (.print _) fun _ => printAll_confined h es

/-- **A statement changes only its own targets**, in the frame it runs in. -/
theorem statement_confined : ∀ (n : Nat) (s : Statement),
    Confined s.targets (eval n (s.tree .returns))
  | 0, _ => .throw _
  | n + 1, s => by
    have part : ∀ (e : Expression) (names : List Identifier),
        Confined names (value n (e.tree .returns)) :=
      fun e _ => .of_nil (value_confined (expression_confined n e []))
    have ih : ∀ (s : Statement) {names : List Identifier}, s.targets ⊆ names →
        Confined names (eval n (s.tree .returns)) :=
      fun s _ hsub => (statement_confined n s).mono hsub
    match s with
    | .block [] => exact .throw _
    | .block [s] =>
      rw [Statement.tree, Statement.trees, Statement.trees, eval_block_one]
      exact .bind (ih s (List.subset_append_left _ _)) fun _ => .pure _
    | .block (s :: u :: ss) =>
      -- the rest of a block is a block of its own, which is why budgets carry the induction
      have hrest : Confined (Statement.targets (.block (s :: u :: ss)))
          (eval n ((Statement.block (u :: ss)).tree .returns)) :=
        ih (.block (u :: ss)) (List.subset_append_right _ _)
      simp only [Statement.tree, Statement.trees] at hrest ⊢
      rw [eval_block_cons]
      exact .bind (ih s (List.subset_append_left _ _)) fun first => .ite (.pure _) hrest
    | .branch c s none =>
      rw [Statement.tree, eval_branch_none]
      refine .bind (part c _) fun _ => .ite ?_ (.pure _)
      exact .bind (ih s (List.Subset.refl _)) fun _ => .pure _
    | .branch c s (some a) =>
      rw [Statement.tree, eval_branch_some]
      refine .bind (part c _) fun _ => .ite ?_ (.ite ?_ (.pure _))
      · exact .bind (ih s (List.subset_append_left _ _)) fun _ => .pure _
      · exact .bind (ih a (List.subset_append_right _ _)) fun _ => .pure _
    | .loop c s =>
      rw [Statement.tree, eval_loop]
      exact .repeatWhile (.of_nil (expression_confined n c [])) (statement_confined n s) n
    | .giveBack none =>
      -- nothing stands where the value would, and the evaluator evaluates that too
      rw [Statement.tree, eval_giveBack_none]
      refine .bind (value_confined ?_) fun _ => .pure _
      cases n with
      | zero => exact .throw _
      | succ n => rw [eval_null]; exact .pure _
    | .giveBack (some e) =>
      rw [Statement.tree, eval_giveBack_some]
      exact .bind (part e _) fun _ => .pure _
    | .print es =>
      rw [Statement.tree, eval_output]
      exact .bind (printAll_confined (expression_confined n) es) fun _ => .pure _
    | .assign x e =>
      rw [eval_assign]
      exact .bind (part e _) fun v => .bind (.assign x v) fun _ => .pure _
    | .expression e => exact expression_confined (n + 1) e []

/-- An assignment fails as its right side does, and leaves the environment alone. -/
theorem ends_assign_of_error {x : Identifier} {e : Expression} {f : Fault} {m m' : Machine}
    (h : Ends .returns .statement (e.tree .returns) m (.error f) m') :
    Ends .returns .statement ((Statement.assign x e).tree .returns) m (.error f) m' ∧
      m'.environment = m.environment := by
  obtain ⟨hne, n, hn⟩ := h
  refine ⟨⟨by simpa using hne, n + 1, ?_⟩, ?_⟩
  · have hvalue : value n (e.tree .returns) m = (.error f, m') := Action.bind_error _ hn
    exact (congrFun (eval_assign n x e) m).trans (Action.bind_error _ hvalue)
  · exact ((expression_confined n e []).assigned hn).eq_of_nil

end Returning

open Returning

/-- **Effects are confined to the current frame.** Run a program that the parser accepts
in any environment and with any budget, and let it end as it will, with a result, with a
fault or out of budget. Then

- every enclosing frame is as it was;
- if the program is an expression, so is the current frame;
- of the current frame, only names that the program assigns outside of functions may
  have changed;
- an assignment whose right side fails fails in the same way, with the environment as it was;
- run in the frame of a call, as the body of a function, the program leaves the caller's
  environment above that frame, so going back to the caller forgets no effect. -/
theorem effects_stay_in_frame {code : String} {t : Tree}
    (ht : Program.tree .returns code = .ok t) :
    (∃ s : Statement, s.tree .returns = t) ∧ ∀ s : Statement, s.tree .returns = t →
      (∀ (n : Nat) (m m' : Machine) (r : Except Fault Completion),
        evaluate .returns n .statement t m = (r, m') →
          (∀ k, Name.ancestor (k + 1) m'.environment = Name.ancestor (k + 1) m.environment) ∧
          (∀ e, s = .expression e → m'.environment = m.environment) ∧
          (∀ name, (∀ x ∈ s.targets, x.text ≠ name) →
            m'.environment.field name = m.environment.field name)) ∧
      (∀ (x : Identifier) (e : Expression) (m m' : Machine) (f : Fault), s = .assign x e →
        Ends .returns .statement (e.tree .returns) m (.error f) m' →
          Ends .returns .statement t m (.error f) m' ∧ m'.environment = m.environment) ∧
      (∀ (n : Nat) (frame : Fields) (m m' : Machine) (r : Except Fault Completion),
        evaluate .returns n .statement t
          ⟨.record (Fields.set Name.parentField m.environment frame), m.printed⟩ = (r, m') →
            m'.environment.field Name.parentField = .ok m.environment) := by
  obtain ⟨s₀, h₀⟩ := Program.tree_image ht
  refine ⟨⟨s₀, h₀.symm⟩, ?_⟩
  rintro s rfl
  refine ⟨?_, ?_, ?_⟩
  -- whatever the budget, the run is confined to the targets of the statement
  · intro n m m' r hrun
    have hassigned : Assigned s.targets m.environment m'.environment :=
      (statement_confined n s).assigned hrun
    refine ⟨hassigned.ancestor_eq, ?_, fun name hname => hassigned.field_eq hname⟩
    rintro e rfl
    exact hassigned.eq_of_nil
  · rintro x e m m' f rfl hfails
    exact ends_assign_of_error hfails
  · intro n frame m m' r hrun
    exact (statement_confined n s).assigned hrun |>.parent_eq

/-- Whatever `f` is and does to a `y` of its own, `x=f(y)` leaves `y` as it was. -/
theorem effects_stay_in_frame_of_call : ∃ t, Program.tree .returns "x=f(y)" = .ok t ∧
    ∀ (n : Nat) (m : Machine),
      (evaluate .returns n .statement t m).2.environment.field "y" = m.environment.field "y" := by
  refine ⟨_, rfl, fun n m => ?_⟩
  have hs := (@effects_stay_in_frame "x=f(y)" _ rfl).2
    (.assign ⟨"x", by decide⟩ (.call (.name ⟨"f", by decide⟩) [.name ⟨"y", by decide⟩])) rfl
  exact (hs.1 n m _ _ rfl).2.2 "y" (by simp [Statement.targets])

end Stepwise
