import Stepwise.Proofs.Chains
import Stepwise.Proofs.Frames
import Stepwise.Proofs.SyntaxTrees
import Stepwise.Proofs.Upkeep

/-!
# Programs without bare calls

A call completes as the body of its function does, so a call that stands alone as
a statement may end the function around it. A program is disciplined if no
statement in it is such a call, in its functions neither. Running a disciplined
program where every function in sight is disciplined keeps it so
(`Returning.upholds`): values, arguments and frames bring in no other function.

- `Statement.disciplined blank`, `Expression.disciplined blank`: what can be read
  off the syntax. `blank` says whether blocks without statements are let pass;
- `Value.Disciplined`, `Name.Disciplined`: if the value is a function, its body is
  disciplined; every value that a name stands for in an environment is;
- `Upholds`: the action keeps the environment disciplined and its result has a
  property.
-/

namespace Stepwise

/-! ## Syntax -/

mutual

/-- No statement of a function in the expression is a bare call. -/
def Expression.disciplined (blank : Bool) : Expression → Bool
  | .number _ | .boolean _ | .name _ => true
  | .negate e | .not e => e.disciplined blank
  | .binary _ l r => l.disciplined blank && r.disciplined blank
  | .call f es => f.disciplined blank && Expression.allDisciplined blank es
  | .function _ body => (blank || !body.isEmpty) && Statement.allDisciplined blank body

/-- All of the expressions are disciplined. -/
def Expression.allDisciplined (blank : Bool) : List Expression → Bool
  | [] => true
  | e :: es => e.disciplined blank && Expression.allDisciplined blank es

/-- No statement is a bare call, and none is an empty block unless these are let pass. -/
def Statement.disciplined (blank : Bool) : Statement → Bool
  | .block ss => (blank || !ss.isEmpty) && Statement.allDisciplined blank ss
  | .branch c s none => c.disciplined blank && s.disciplined blank
  | .branch c s (some a) => c.disciplined blank && s.disciplined blank && a.disciplined blank
  | .loop c s => c.disciplined blank && s.disciplined blank
  | .giveBack none => true
  | .giveBack (some e) => e.disciplined blank
  | .print es => Expression.allDisciplined blank es
  | .assign _ e => e.disciplined blank
  | .expression e => !e.isCall && e.disciplined blank

/-- All of the statements are disciplined. -/
def Statement.allDisciplined (blank : Bool) : List Statement → Bool
  | [] => true
  | s :: ss => s.disciplined blank && Statement.allDisciplined blank ss

end

variable {blank : Bool}

theorem Statement.disciplined_branch {c : Expression} {s : Statement} {a : Option Statement} :
    (Statement.branch c s a).disciplined blank = true ↔
      c.disciplined blank = true ∧ s.disciplined blank = true ∧
        ∀ a', a = some a' → a'.disciplined blank = true := by
  cases a <;> simp [Statement.disciplined, and_assoc]

/-! ## Values and environments -/

/-- If the value is a function, the parser made it and its body is disciplined. -/
def Value.Disciplined (blank : Bool) (v : Value) : Prop :=
  ∀ parameters body, Node.functionParts v = .ok (parameters, body) →
    ∃ (xs : List Identifier) (ss : List Statement), parameters = Identifier.listTree .returns xs ∧
      body = (Statement.block ss).tree .returns ∧ (Statement.block ss).disciplined blank = true

/-- Every name that can be looked up in the environment stands for a disciplined value. -/
def Name.Disciplined (blank : Bool) (env : Value) : Prop :=
  ∀ (x : Identifier) (v : Value), Name.resolve x.text env = .ok v → v.Disciplined blank

namespace Value

/-- The value is not a record, so that it can be no function. -/
def Plain (v : Value) : Prop := ∀ fields, v ≠ .record fields

/-- A value that is no function is disciplined. -/
theorem Plain.disciplined {v : Value} (h : v.Plain) : v.Disciplined blank := by
  intro parameters body hparts
  cases v with
  | record fields => exact absurd rfl (h fields)
  | null | bool | int | float | text | list => cases hparts

theorem plain_int (n : Int) : Plain (.int n) := nofun

theorem plain_float (x : Float) : Plain (.float x) := nofun

/-- A negative is a number, and hence no function. -/
theorem negate_plain (v : Value) : Yields Plain v.negate := by
  unfold negate
  split
  · exact .pure (plain_int _)
  · exact .pure (plain_float _)
  · exact .error _

end Value

/-- No operator makes a function. -/
theorem Operator.apply_plain (op : Operator) (a b : Value) :
    Yields Value.Plain (op.apply a b) := by
  rintro v hv fields rfl
  exact op.apply_derived a b _ hv

namespace Name

namespace Disciplined

/-- Assigning a disciplined value keeps an environment disciplined. -/
theorem set {fields : Fields} (h : Disciplined blank (.record fields)) (x : Identifier) {v : Value}
    (hv : v.Disciplined blank) : Disciplined blank (.record (Fields.set x.text v fields)) :=
  Visible.set h x hv

/-- The frame of a call sees its own arguments and what the caller sees. -/
theorem frame {caller : Value} {fields : Fields} (hcaller : Disciplined blank caller)
    (hfields : ∀ (x : Identifier) (v : Value), Fields.get? x.text fields = some v →
      v.Disciplined blank) :
    Disciplined blank (.record (Fields.set parentField caller fields)) :=
  Visible.frame hcaller hfields

end Disciplined

end Name

/-! ## Actions that uphold the discipline -/

/-- The action keeps the environment disciplined, and its result has the property. -/
def Upholds {α : Type} (blank : Bool) (P : α → Prop) (x : Action α) : Prop :=
  ∀ m, Name.Disciplined blank m.environment →
    Name.Disciplined blank (x m).2.environment ∧ Yields P (x m).1

namespace Upholds

variable {α β : Type} {P : α → Prop} {Q : β → Prop}

theorem result {x : Action α} (h : Upholds blank P x) {m m' : Machine} {r : Except Fault α}
    (hm : Name.Disciplined blank m.environment) (hx : x m = (r, m')) :
    Name.Disciplined blank m'.environment ∧ Yields P r := by
  have hresult := h m hm
  rwa [hx] at hresult

theorem pure {a : α} (h : P a) : Upholds blank P (pure a : Action α) :=
  fun _ hm => ⟨hm, .pure h⟩

theorem throw (e : Fault) : Upholds blank P (throw e : Action α) :=
  fun _ hm => ⟨hm, .error e⟩

theorem lift {x : Except Fault α} (h : Yields P x) : Upholds blank P (liftM x : Action α) :=
  fun _ hm => ⟨hm, h⟩

theorem environment : Upholds blank (Name.Disciplined blank) Action.environment :=
  fun _ hm => ⟨hm, .pure hm⟩

theorem print (s : String) : Upholds blank (fun _ => True) (Action.print s) :=
  fun _ hm => ⟨hm, .pure trivial⟩

/-- One action after the other, the second with what is known of the first's result. -/
theorem bind {x : Action α} {f : α → Action β} (hx : Upholds blank P x)
    (hf : ∀ a, P a → Upholds blank Q (f a)) : Upholds blank Q (x >>= f) := by
  intro m hm
  obtain ⟨hm₁, hr⟩ := hx m hm
  cases hxm : x m with
  | mk r m₁ =>
    rw [hxm] at hm₁ hr
    cases r with
    | ok a =>
      rw [Action.bind_ok f hxm]
      exact hf a (hr a rfl) m₁ hm₁
    | error e =>
      rw [Action.bind_error f hxm]
      exact ⟨hm₁, .error e⟩

theorem ite {c : Prop} [Decidable c] {x y : Action α} (hx : Upholds blank P x)
    (hy : Upholds blank P y) : Upholds blank P (if c then x else y) := by
  split
  · exact hx
  · exact hy

theorem inFrame {frame : Value} {x : Action α} (hframe : Name.Disciplined blank frame)
    (hx : Upholds blank P x) : Upholds blank P (Action.inFrame frame x) :=
  fun m hm => ⟨hm, (hx ⟨frame, m.printed⟩ hframe).2⟩

/-- Binding a disciplined value keeps the environment disciplined. -/
theorem assign (x : Identifier) {v : Value} (hv : v.Disciplined blank) :
    Upholds blank (fun _ => True) (Action.assign (.text x.text) v) := by
  rintro ⟨env, printed⟩ hm
  refine ⟨?_, fun _ _ => trivial⟩
  cases env with
  | record fields => exact Name.Disciplined.set hm x hv
  | null | bool | int | float | text | list => exact hm

/-- A loop upholds the discipline if its condition and its body do. -/
theorem repeatWhile {P : Completion → Prop} {Q : Completion → Prop}
    {condition body : Action Completion} (hc : Upholds blank Q condition)
    (hb : Upholds blank P body) (hnull : P (.normal .null)) :
    ∀ n : Nat, Upholds blank P (Node.repeatWhile condition body n)
  | 0 => .throw _
  | n + 1 => by
    unfold Node.repeatWhile
    refine .bind hc fun c _ => .ite ?_ (.pure hnull)
    exact .bind hb fun done hdone => .ite (.pure hdone) (repeatWhile hc hb hnull n)

end Upholds

namespace Returning

open Expression (listTree)

/-- The completion's value is disciplined. -/
def Carries (blank : Bool) (c : Completion) : Prop := c.value.Disciplined blank

theorem value_upholds {n : Nat} {t : Tree} (h : Upholds blank (Carries blank) (eval n t)) :
    Upholds blank (Value.Disciplined blank) (value n t) :=
  .bind h fun _ hc => .pure hc

/-- A completion that is passed on carries no other function. -/
theorem carries_passOn {c : Completion} (h : Carries blank c) : Carries blank (passOn c) := by
  unfold passOn
  split
  · exact h
  · exact Value.Plain.disciplined nofun

theorem carries_normal {v : Value} (h : v.Plain) : Carries blank (.normal v) := h.disciplined

/-- The value of a function literal is disciplined if its body is, whatever stands behind it. -/
theorem function_disciplined {xs : List Identifier} {ss : List Statement}
    (h : (Expression.function xs ss).disciplined blank = true) (rest : List Expression) :
    Value.Disciplined blank (listTree .returns (.function xs ss :: rest)) := by
  intro parameters body hparts
  have hnode : Node.functionParts (listTree .returns (.function xs ss :: rest)) =
      .ok (Identifier.listTree .returns xs, (Statement.block ss).tree .returns) := by
    cases rest <;> rfl
  cases hnode.symm.trans hparts
  exact ⟨xs, ss, rfl, rfl, h⟩

/-- All expressions, with whatever stands behind them, uphold the discipline. -/
def ExpressionsUphold (blank : Bool) (n : Nat) : Prop :=
  ∀ (e : Expression) (rest : List Expression), e.disciplined blank = true →
    Upholds blank (Carries blank) (eval n (listTree .returns (e :: rest)))

/-- So do all statements. -/
def StatementsUphold (blank : Bool) (n : Nat) : Prop :=
  ∀ s : Statement, s.disciplined blank = true →
    Upholds blank (Carries blank) (eval n (s.tree .returns))

/-- Binding disciplined arguments fills the frame with disciplined values. -/
theorem bindAll_upholds {n : Nat} (h : ExpressionsUphold blank n) :
    ∀ (frame : Fields) (xs : List Identifier) (es : List Expression),
      Expression.allDisciplined blank es = true →
      (∀ (x : Identifier) (v : Value), Fields.get? x.text frame = some v → v.Disciplined blank) →
      Upholds blank (fun frame => ∀ (x : Identifier) (v : Value),
        Fields.get? x.text frame = some v → v.Disciplined blank) (bindAll n frame xs es)
  | _, [], [], _, hframe => .pure hframe
  | _, [], _ :: _, _, _ | _, _ :: _, [], _, _ => .throw _
  | frame, x :: xs, e :: es, hes, hframe => by
    simp only [Expression.allDisciplined, Bool.and_eq_true] at hes
    refine .bind (value_upholds (h e es hes.1)) fun v hv => bindAll_upholds h _ xs es hes.2 ?_
    intro y w hw
    by_cases hy : y.text = x.text
    · rw [hy, Fields.get?_set_self] at hw
      cases hw
      exact hv
    · rw [Fields.get?_set_of_text_ne v hy] at hw
      exact hframe y w hw

/-- A function value that the parser made is called in a disciplined frame. -/
theorem call_upholds {n : Nat} (hE : ExpressionsUphold blank n) (hS : StatementsUphold blank n)
    {f : Expression} {es : List Expression} (hf : f.disciplined blank = true)
    (hes : Expression.allDisciplined blank es = true) (rest : List Expression) :
    Upholds blank (Carries blank) (eval (n + 1) (listTree .returns (.call f es :: rest))) := by
  rw [eval_call]
  refine .bind (value_upholds (hE f [] hf)) fun v hv => ?_
  refine .bind (.lift (P := fun parts => Node.functionParts v = .ok parts) fun _ h => h) ?_
  rintro ⟨parameters, body⟩ hparts
  obtain ⟨xs, ss, rfl, rfl, hss⟩ := hv parameters body hparts
  show Upholds blank (Carries blank) (enter n _ _ _)
  rw [enter_listTree]
  have hempty : ∀ (x : Identifier) (v : Value), Fields.get? x.text [] = some v →
      v.Disciplined blank := nofun
  refine .bind (bindAll_upholds hE [] xs es hes hempty) fun frame hframe => ?_
  exact .bind .environment fun caller hcaller => .inFrame (hcaller.frame hframe) (hS _ hss)

/-- One more unit of budget, for expressions. -/
theorem expression_step {n : Nat} (hE : ExpressionsUphold blank n)
    (hS : StatementsUphold blank n) : ExpressionsUphold blank (n + 1) := by
  intro e rest he
  have part : ∀ e : Expression, e.disciplined blank = true →
      Upholds blank (Value.Disciplined blank) (value n (e.tree .returns)) :=
    fun e he => value_upholds (hE e [] he)
  cases e with
  | number v =>
    rw [eval_number]
    refine .pure (carries_normal ?_)
    cases v with
    | int n => exact Value.plain_int n
    | float x => exact Value.plain_float x
  | boolean b => rw [eval_boolean]; exact .throw _
  | name x =>
    -- the one expression that depends on the environment
    rw [eval_name]
    refine .bind .environment fun env henv => .bind (.lift ?_) fun v hv => .pure hv
    exact fun v hv => henv x v hv
  | function xs ss => rw [eval_function]; exact .pure (function_disciplined he rest)
  | negate e =>
    rw [eval_negate]
    refine .bind (part e he) fun v _ => .bind (.lift v.negate_plain) fun w hw => ?_
    exact .pure (carries_normal hw)
  | not e =>
    rw [eval_not]
    exact .bind (part e he) fun _ _ => .pure (carries_normal (Value.plain_int _))
  | binary op l r =>
    rw [eval_binary]
    simp only [Expression.disciplined, Bool.and_eq_true] at he
    refine .bind (part l he.1) fun a _ => .bind (part r he.2) fun b _ => ?_
    exact .bind (.lift (op.apply_plain a b)) fun v hv => .pure (carries_normal hv)
  | call f es =>
    simp only [Expression.disciplined, Bool.and_eq_true] at he
    exact call_upholds hE hS he.1 he.2 rest

/-- Printing upholds the discipline. -/
theorem printAll_upholds {n : Nat} (h : ExpressionsUphold blank n) :
    ∀ es : List Expression, Expression.allDisciplined blank es = true →
      Upholds blank (fun _ => True)
        (Node.printAll (evaluate .returns n) (Tree.members (listTree .returns es)))
  | [], _ => .print _
  | e :: es, hes => by
    simp only [Expression.allDisciplined, Bool.and_eq_true] at hes
    rw [printAll_cons]
    refine .bind (value_upholds (h e es hes.1)) fun v _ => ?_
    refine .bind (.lift (P := fun _ => True) fun _ _ => trivial) fun text _ => ?_
    exact .bind (.print _) fun _ _ => printAll_upholds h es hes.2

/-- One more unit of budget, for statements. Those that are expressions are evaluated with the
larger budget itself. -/
theorem statement_step {n : Nat} (hE : ExpressionsUphold blank n)
    (hE' : ExpressionsUphold blank (n + 1)) (hS : StatementsUphold blank n) :
    StatementsUphold blank (n + 1) := by
  intro s hs
  have null : Carries blank (.normal .null) := carries_normal nofun
  -- parts are evaluated with the smaller budget: those that are expressions for their value
  have part : ∀ e : Expression, e.disciplined blank = true →
      Upholds blank (Value.Disciplined blank) (value n (e.tree .returns)) :=
    fun e he => value_upholds (hE e [] he)
  -- and those that are statements for the completion that is passed on
  have inside : ∀ s : Statement, s.disciplined blank = true →
      Upholds blank (Carries blank) (do return passOn (← eval n (s.tree .returns))) :=
    fun s hs => .bind (hS s hs) fun _ hc => .pure (carries_passOn hc)
  match s, hs with
  | .block [], _ => exact .throw _
  | .block [s], hs =>
    simp only [Statement.disciplined, Statement.allDisciplined, Bool.and_eq_true] at hs
    rw [Statement.tree, Statement.trees, Statement.trees, eval_block_one]
    exact inside s hs.2.1
  | .block (s :: u :: ss), hs =>
    simp only [Statement.disciplined, Statement.allDisciplined, Bool.and_eq_true] at hs
    obtain ⟨-, hs, hu, hss⟩ := hs
    have hrest := hS (.block (u :: ss)) (by simp [Statement.disciplined,
      Statement.allDisciplined, hu, hss])
    simp only [Statement.tree, Statement.trees] at hrest ⊢
    rw [eval_block_cons]
    exact .bind (hS s hs) fun first hfirst => .ite (.pure hfirst) hrest
  | .branch c s none, hs =>
    simp only [Statement.disciplined, Bool.and_eq_true] at hs
    rw [Statement.tree, eval_branch_none]
    exact .bind (part c hs.1) fun _ _ => .ite (inside s hs.2) (.pure null)
  | .branch c s (some a), hs =>
    simp only [Statement.disciplined, Bool.and_eq_true] at hs
    rw [Statement.tree, eval_branch_some]
    refine .bind (part c hs.1.1) fun _ _ => .ite (inside s hs.1.2) ?_
    exact .ite (inside a hs.2) (.pure null)
  | .loop c s, hs =>
    simp only [Statement.disciplined, Bool.and_eq_true] at hs
    rw [Statement.tree, eval_loop]
    exact .repeatWhile (hE c [] hs.1) (hS s hs.2) null n
  | .giveBack none, _ =>
    rw [Statement.tree, eval_giveBack_none]
    refine .bind (value_upholds ?_) fun v hv => .pure hv
    -- the missing value takes one unit, which may be the last
    cases n with
    | zero => exact .throw _
    | succ n => rw [eval_null]; exact .pure null
  | .giveBack (some e), hs =>
    rw [Statement.tree, eval_giveBack_some]
    exact .bind (part e hs) fun v hv => .pure hv
  | .print es, hs =>
    rw [Statement.tree, eval_output]
    exact .bind (printAll_upholds hE es hs) fun _ _ => .pure null
  | .assign x e, hs =>
    rw [eval_assign]
    exact .bind (part e hs) fun v hv => .bind (.assign x hv) fun _ _ => .pure null
  | .expression e, hs =>
    simp only [Statement.disciplined, Bool.and_eq_true] at hs
    exact hE' e [] hs.2

/-- **Disciplined programs see only disciplined functions**, at every budget: by induction on
the budget, since a call needs it of the body of the function. -/
theorem upholds (blank : Bool) :
    ∀ n : Nat, ExpressionsUphold blank n ∧ StatementsUphold blank n
  | 0 => ⟨fun _ _ _ => .throw _, fun _ _ => .throw _⟩
  | n + 1 =>
    have ⟨hE, hS⟩ := upholds blank n
    have hE' := expression_step hE hS
    ⟨hE', statement_step hE hE' hS⟩

end Returning

end Stepwise
