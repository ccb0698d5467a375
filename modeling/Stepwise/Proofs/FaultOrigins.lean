import Mathlib.Tactic.ByContra
import Stepwise.Proofs.Chains
import Stepwise.Proofs.Nodes
import Stepwise.Proofs.ParserImage

/-!
# Where faults come from

At the last stage a program that the parser made fits its evaluator: in an environment that a
session can reach, evaluating it fails for a handful of reasons only, and those that depend on
the program come from a node that shows them (`evaluate_fault`).

- `Value.Ordinary`, `Name.Ordinary`: the values that programs compute, and the environments that
  hold them. Operators and printing fail with `Fault.Operational` faults on such values;
- `Returning.Origin e t m`: evaluating the node `t` on the machine `m` may by itself fail with
  the fault `e`;
- `Keeps A P x m`: from `m` the action `x` comes to an ordinary environment, with a result that
  has the property `P` or a fault with the property `A`. One lemma for each kind of syntax
  shows that a step of the evaluator keeps what its parts keep, if `A` holds of the faults
  that come from the node itself (`step_keeps`);
- `Returning.stopping P`: the evaluator, but for nodes with the property `P`, where it stops.
  With the origins of a fault for `P` it never fails with this fault. So an evaluation that does
  has met such a node (`Returning.Meets`).
-/

namespace Stepwise

open Expression (listTree)

/-! ## Ordinary values -/

/-- A number, null, or a function that the parser made, with what stood behind it in a list. -/
def Value.Ordinary : Value → Prop
  | .null | .int _ | .float _ => True
  | .record fields => ∃ (xs : List Identifier) (ss : List Statement) (rest : List Expression),
      .record fields = listTree .returns (.function xs ss :: rest)
  | .bool _ | .text _ | .list _ => False

/-- The faults that depend on the values at hand. -/
inductive Fault.Operational : Fault → Prop
  | wrongType : Operational .wrongType
  | divisionByZero : Operational .divisionByZero
  | tooLarge : Operational .tooLarge
  | notInteger : Operational .notInteger
  | numeralTooLong : Operational .numeralTooLong

open Fault (Operational)

/-- An integer may be beyond the range of doubles. -/
theorem Numeric.toFloat_answers (x : Numeric) : Answers Operational (fun _ => True) x.toFloat := by
  unfold toFloat
  split
  · split
    · trivial
    · exact .error .tooLarge
  · trivial

/-- Two integers are combined exactly, other numbers as doubles. -/
theorem Numeric.combine_answers (onInts : Int → Int → Int) (onFloats : Float → Float → Float)
    (x y : Numeric) : Answers Operational Value.Ordinary (combine onInts onFloats x y) := by
  unfold combine
  split
  · trivial
  · exact x.toFloat_answers.bind fun _ _ => y.toFloat_answers.bind fun _ _ => .pure trivial

/-- Quotients are doubles, and may be too large. -/
theorem Numeric.divide_answers (x y : Numeric) :
    Answers Operational Value.Ordinary (divide x y) := by
  unfold divide
  split
  · split
    · trivial
    · exact .error .tooLarge
  · exact x.toFloat_answers.bind fun _ _ => y.toFloat_answers.bind fun _ _ => .pure trivial

namespace Value

variable {a b : Value}

/-- A function that stands in a list is ordinary, whatever is behind it. -/
theorem ordinary_function (xs : List Identifier) (ss : List Statement) (rest : List Expression) :
    Ordinary (listTree .returns (.function xs ss :: rest)) := by
  cases rest with
  | nil => exact ⟨xs, ss, [], rfl⟩
  | cons e es => exact ⟨xs, ss, e :: es, rfl⟩

theorem ordinary_numeric (x : Numeric) : x.value.Ordinary := by
  cases x with
  | int n => trivial
  | float x => trivial

/-- What is no number has the wrong type. -/
theorem onNumbers_answers {op : Numeric → Numeric → Except Fault Value}
    (h : ∀ x y, Answers Operational Ordinary (op x y)) (a b : Value) :
    Answers Operational Ordinary (onNumbers op a b) := by
  unfold onNumbers
  split
  · exact h _ _
  · exact .error .wrongType

/-- Only numbers can be negated. -/
theorem negate_answers (v : Value) : Answers Operational Ordinary v.negate := by
  unfold negate
  split
  · trivial
  · trivial
  · exact .error .wrongType

/-- An integer may have too many digits to be printed. -/
theorem print_answers (v : Value) : Answers Operational (fun _ => True) v.print :=
  .ite (fun _ => .error .numeralTooLong) fun _ => .pure trivial

/-- No ordinary value can be repeated. -/
theorem Ordinary.repeated_answers (ha : a.Ordinary) (count : Int) :
    Answers Operational Ordinary (a.repeated count) := by
  cases a with
  | text | list => exact ha.elim
  | null | bool | int | float | record => exact .error .wrongType

/-- Every number but infinities and not-a-number is cut to an integer. -/
theorem Ordinary.toInteger_answers (ha : a.Ordinary) :
    Answers Operational (fun _ => True) a.toInteger := by
  cases a with
  | int n => trivial
  | float x =>
    rw [toInteger]
    cases Number.Binary.ofFloat? x with
    | some b => trivial
    | none =>
      cases x.isNaN with
      | true => exact .error .notInteger
      | false => exact .error .tooLarge
  | null | record => exact .error .wrongType
  | bool | text | list => exact ha.elim

/-- Ordinary values are added as numbers only: none of them is a text or a list. -/
theorem Ordinary.add_answers (ha : a.Ordinary) : Answers Operational Ordinary (a.add b) := by
  unfold add
  split
  · exact ha.elim
  · exact ha.elim
  · exact onNumbers_answers (Numeric.combine_answers _ _) _ _

/-- Nor can they be repeated. -/
theorem Ordinary.multiply_answers (ha : a.Ordinary) (hb : b.Ordinary) :
    Answers Operational Ordinary (a.multiply b) := by
  unfold multiply
  split
  · exact Numeric.combine_answers _ _ _ _
  · exact hb.repeated_answers _
  · exact ha.repeated_answers _
  · exact .error .wrongType

/-- Ordinary values are compared as numbers only. -/
theorem Ordinary.relate_answers (ha : a.Ordinary) (r : Relation) :
    Answers Operational (fun _ => True) (a.relate r b) := by
  unfold relate
  split
  · exact ha.elim
  · exact ha.elim
  · split
    · trivial
    · exact .error .wrongType

end Value

/-- **Operators on ordinary values** give ordinary values and operational faults. -/
theorem Operator.apply_answers (op : Operator) {a b : Value} (ha : a.Ordinary) (hb : b.Ordinary) :
    Answers Operational Value.Ordinary (op.apply a b) := by
  -- relations answer with 0 or 1
  have relation : ∀ r, Answers Operational Value.Ordinary (Operation.relation r a b) :=
    fun r => (ha.relate_answers r).bind fun _ _ => .pure trivial
  -- `&&` and `||` choose one of the two operands
  have either : ∀ c : Bool, (if c then a else b).Ordinary ∧ (if c then b else a).Ordinary := by
    intro c
    cases c with
    | true => exact ⟨ha, hb⟩
    | false => exact ⟨hb, ha⟩
  cases op with
  | plus => exact ha.add_answers
  | minus => exact Value.onNumbers_answers (Numeric.combine_answers _ _) a b
  | times => exact ha.multiply_answers hb
  | divide =>
    exact .ite (fun _ => .error .divisionByZero) fun _ =>
      Value.onNumbers_answers Numeric.divide_answers a b
  | less | greater | lessEqual | greaterEqual => exact relation _
  | equal | unequal => exact .pure trivial
  | and => exact (either a.truthy).2.toInteger_answers.bind fun _ _ => .pure trivial
  | or => exact (either a.truthy).1.toInteger_answers.bind fun _ _ => .pure trivial

/-- What can be called is a function that the parser made. -/
theorem Value.Ordinary.functionParts_answers {v : Value} (h : v.Ordinary) :
    Answers Operational (fun parts => ∃ (xs : List Identifier) (ss : List Statement)
      (rest : List Expression), v = listTree .returns (.function xs ss :: rest) ∧
        parts = (Identifier.listTree .returns xs, (Statement.block ss).tree .returns))
      (Node.functionParts v) := by
  cases v with
  | null | int | float => exact .error .wrongType
  | record fields =>
    obtain ⟨xs, ss, rest, hv⟩ := h
    have hparts : Node.functionParts (listTree .returns (.function xs ss :: rest)) =
        .ok (Identifier.listTree .returns xs, (Statement.block ss).tree .returns) := by
      cases rest <;> rfl
    rw [hv, hparts]
    exact .pure ⟨xs, ss, rest, rfl, rfl⟩
  | bool | text | list => exact h.elim

/-! ## Ordinary environments -/

namespace Name

/-- In the frame names stand for ordinary values. -/
def BindsOrdinary (fields : Fields) : Prop :=
  ∀ name v, name ≠ parentField → Fields.get? name fields = some v → v.Ordinary

namespace BindsOrdinary

theorem nil : BindsOrdinary [] := by
  intro name v _ h
  cases h

/-- A name is bound to an ordinary value. -/
theorem set {fields : Fields} (h : BindsOrdinary fields) (key : String) {v : Value}
    (hv : v.Ordinary) : BindsOrdinary (Fields.set key v fields) := by
  intro name w hname hw
  by_cases hkey : name = key
  · rw [hkey, Fields.get?_set_self] at hw
    cases hw
    exact hv
  · rw [Fields.get?_set_of_text_ne v hkey] at hw
    exact h name w hname hw

end BindsOrdinary

/-- Frames in which names stand for ordinary values. Behind the last one there is nothing, or the
flag that a text in an interactive session has left. -/
inductive Ordinary : Value → Prop
  | flag (b : Bool) : Ordinary (.bool b)
  | frame {fields : Fields} : BindsOrdinary fields →
      (∀ parent, Fields.get? parentField fields = some parent → Ordinary parent) →
      Ordinary (.record fields)

namespace Ordinary

theorem empty : Ordinary (.record []) := by
  refine .frame .nil fun parent h => ?_
  cases h

/-- An assignment keeps a frame ordinary. No identifier is the name of the enclosing frame. -/
theorem set {fields : Fields} (h : Ordinary (.record fields)) (x : Identifier) {v : Value}
    (hv : v.Ordinary) : Ordinary (.record (Fields.set x.text v fields)) := by
  cases h with
  | frame hfields hparent =>
    refine .frame (hfields.set x.text hv) fun parent hget => hparent parent ?_
    rwa [Fields.get?_set_of_text_ne v x.text_ne_parent.symm] at hget

/-- The frame of a call. -/
theorem inside {caller : Value} (h : Ordinary caller) {fields : Fields}
    (hfields : BindsOrdinary fields) :
    Ordinary (.record (Fields.set parentField caller fields)) := by
  refine .frame (fun name v hname hget => ?_) fun parent hget => ?_
  · rw [Fields.get?_set_of_text_ne caller hname] at hget
    exact hfields name v hname hget
  · rw [Fields.get?_set_self] at hget
    cases hget
    exact h

/-- **Names stand for ordinary values**, or for nothing. In the place of the flag `true` a name
cannot be looked up. -/
theorem resolve_answers {env : Value} (h : Ordinary env) (x : Identifier) :
    Answers (fun e => e = .undefinedName x.text ∨ e = .wrongType) Value.Ordinary
      (resolve x.text env) := by
  -- by induction on the chain: a frame binds the name, or the frame around it decides
  induction h with
  | flag b =>
    cases b with
    | true => exact .error (.inr rfl)
    | false => exact .error (.inl rfl)
  | @frame fields hfields hparent ih =>
    rw [resolve_record, resolveParent_eq]
    cases hname : Fields.get? x.text fields with
    | some v => exact hfields x.text v x.text_ne_parent hname
    | none =>
      cases hget : Fields.get? parentField fields with
      | some parent => exact ih parent hget
      | none => exact .error (.inl rfl)

end Ordinary

end Name

/-! ## Actions in ordinary environments -/

/-- From `m` the action comes to an ordinary environment, with a result that has the property `P`
or a fault that has the property `A`. -/
def Keeps {α : Type} (A : Fault → Prop) (P : α → Prop) (x : Action α) (m : Machine) : Prop :=
  Name.Ordinary (x m).2.environment ∧ Answers A P (x m).1

namespace Keeps

variable {α β : Type} {A : Fault → Prop} {P : α → Prop} {Q : β → Prop} {m : Machine}

theorem pure (hm : Name.Ordinary m.environment) {a : α} (h : P a) :
    Keeps A P (pure a : Action α) m :=
  ⟨hm, h⟩

theorem throw (hm : Name.Ordinary m.environment) {e : Fault} (h : A e) :
    Keeps A P (throw e : Action α) m :=
  ⟨hm, h⟩

/-- What depends on values alone fails with operational faults. -/
theorem operation (hA : ∀ e, Operational e → A e) (hm : Name.Ordinary m.environment)
    {x : Except Fault α} (h : Answers Operational P x) : Keeps A P (liftM x : Action α) m :=
  ⟨hm, h.imp hA fun _ ha => ha⟩

theorem print (hm : Name.Ordinary m.environment) (s : String) :
    Keeps A (fun _ => True) (Action.print s) m :=
  ⟨hm, trivial⟩

/-- What follows starts in an ordinary environment again. -/
theorem bind {x : Action α} {f : α → Action β} (hx : Keeps A P x m)
    (hf : ∀ a m₁, x m = (.ok a, m₁) → Name.Ordinary m₁.environment → P a → Keeps A Q (f a) m₁) :
    Keeps A Q (x >>= f) m := by
  obtain ⟨hm₁, hanswer⟩ := hx
  cases hxm : x m with
  | mk r m₁ =>
    rw [hxm] at hm₁ hanswer
    cases r with
    | ok a =>
      rw [Keeps, Action.bind_ok f hxm]
      exact hf a m₁ hxm hm₁ hanswer
    | error e =>
      rw [Keeps, Action.bind_error f hxm]
      exact ⟨hm₁, hanswer⟩

theorem ite {c : Prop} [Decidable c] {x y : Action α} (hx : c → Keeps A P x m)
    (hy : ¬c → Keeps A P y m) : Keeps A P (if c then x else y) m := by
  split
  · exact hx ‹c›
  · exact hy ‹¬c›

theorem inFrame {frame : Value} {x : Action α} (hm : Name.Ordinary m.environment)
    (hx : Keeps A P x ⟨frame, m.printed⟩) : Keeps A P (Action.inFrame frame x) m :=
  ⟨hm, hx.2⟩

/-- Nothing can be assigned in the place of a flag. -/
theorem assign (hm : Name.Ordinary m.environment) (htype : A .wrongType) (x : Identifier)
    {v : Value} (hv : v.Ordinary) :
    Keeps A (fun _ => True) (Action.assign (.text x.text) v) m := by
  obtain ⟨env, printed⟩ := m
  cases hm with
  | flag b => exact ⟨.flag b, htype⟩
  | frame hfields hparent => exact ⟨.set (.frame hfields hparent) x hv, trivial⟩

/-- Condition and body keep the environment in every round. -/
theorem repeatWhile {P Q : Completion → Prop} {condition body : Action Completion}
    (hbudget : A .exhausted) (hnull : P (.normal .null))
    (hc : ∀ m, Name.Ordinary m.environment → Keeps A Q condition m)
    (hb : ∀ m, Name.Ordinary m.environment → Keeps A P body m) :
    ∀ (n : Nat) {m : Machine}, Name.Ordinary m.environment →
      Keeps A P (Node.repeatWhile condition body n) m
  | 0, _, hm => .throw hm hbudget
  | n + 1, m, hm => by
    unfold Node.repeatWhile
    refine .bind (hc m hm) fun c m₁ _ hm₁ _ => .ite (fun _ => ?_) fun _ => .pure hm₁ hnull
    refine .bind (hb m₁ hm₁) fun done m₂ _ hm₂ hdone => ?_
    exact .ite (fun _ => .pure hm₂ hdone) fun _ => repeatWhile hbudget hnull hc hb n hm₂

end Keeps

/-! ## What the parts of a program keep -/

/-- The trees that a program is made of, with what stands behind an expression in a list. -/
inductive Tree.Runnable : Tree → Prop
  | null : Runnable .null
  | expression (e : Expression) (rest : List Expression) :
      Runnable (listTree .returns (e :: rest))
  | statement (s : Statement) : Runnable (s.tree .returns)

/-- The completion's value is ordinary. -/
def Completion.Ordinary (c : Completion) : Prop := c.value.Ordinary

namespace Returning

/-- Evaluating the node on the machine may by itself fail with the fault. -/
inductive Origin : Fault → Tree → Machine → Prop
  /-- A block without statements. -/
  | emptyBlock (m : Machine) : Origin (.missingField "statement") (Tree.block []) m
  /-- A truth value. -/
  | truth (b : Bool) (rest : List Expression) (m : Machine) :
      Origin (.unknownOperation (.text "<boolean>")) (listTree .returns (.boolean b :: rest)) m
  /-- A name that means nothing. -/
  | unbound {x : Identifier} {rest : List Expression} {m : Machine} :
      Name.resolve x.text m.environment = .error (.undefinedName x.text) →
      Origin (.undefinedName x.text) (listTree .returns (.name x :: rest)) m
  /-- A call with more or fewer arguments than the function has parameters. -/
  | miscall {f : Expression} {args rest more : List Expression} {xs : List Identifier}
      {ss : List Statement} {returning : Bool} {m m' : Machine} :
      Ends .returns .statement (f.tree .returns) m
        (.ok ⟨listTree .returns (.function xs ss :: more), returning⟩) m' →
      xs.length ≠ args.length → Origin .violation (listTree .returns (.call f args :: rest)) m
  /-- Any node: the values decide. -/
  | operation {e : Fault} (t : Tree) (m : Machine) : Operational e → Origin e t m

section Step

variable {part : Evaluator} {n : Nat} {A : Fault → Prop} {m : Machine}
  (hpart : ∀ mode {t : Tree} {m : Machine}, t.Runnable → Name.Ordinary m.environment →
    Keeps A Completion.Ordinary (part mode t) m)
include hpart

theorem valueOf_keeps (hm : Name.Ordinary m.environment) {t : Tree} (ht : t.Runnable) :
    Keeps A Value.Ordinary (valueOf part t) m :=
  .bind (hpart .statement ht hm) fun _ _ _ hm₁ hc => .pure hm₁ hc

theorem tree_keeps (hm : Name.Ordinary m.environment) (e : Expression) :
    Keeps A Value.Ordinary (valueOf part (e.tree .returns)) m :=
  valueOf_keeps hpart hm (.expression e [])

/-- Arguments are bound as long as there are parameters. Some are left over if there were fewer of
these. -/
theorem bindArguments_keeps :
    ∀ {frame : Fields} (xs : List Identifier) (es : List Expression) {m : Machine},
      Name.Ordinary m.environment → (xs.length ≠ es.length → A .violation) →
      Name.BindsOrdinary frame →
      Keeps A (fun p => Name.BindsOrdinary p.1 ∧ (xs.length = es.length → p.2 = []))
        (bindArguments part frame (Tree.members (Identifier.listTree .returns xs))
          (Tree.members (listTree .returns es))) m
  -- parameters that are used up: arguments may be left over
  | _, [], es, _, hm, _, hframe => by
    refine .pure hm ⟨hframe, fun hlength => ?_⟩
    rw [List.eq_nil_of_length_eq_zero hlength.symm]
    rfl
  -- parameters without arguments are a violation
  | _, x :: xs, [], _, hm, hviolation, _ => by
    rw [Identifier.members_listTree_cons]
    exact .throw hm (hviolation (by simp))
  -- one value is bound, and the rest go on in an ordinary frame
  | _, x :: xs, e :: es, _, hm, hviolation, hframe => by
    rw [Identifier.members_listTree_cons, Expression.members_listTree_cons]
    unfold bindArguments
    refine .bind (valueOf_keeps hpart hm (.expression e es)) fun v m₁ _ hm₁ hv => ?_
    rw [Identifier.listTree_value]
    have hlength : xs.length ≠ es.length → A .violation := fun hne =>
      hviolation (by simpa using hne)
    have hrest := bindArguments_keeps xs es hm₁ hlength (hframe.set x.text hv)
    simp only [List.length_cons, Nat.add_right_cancel_iff]
    exact hrest

/-- Printing a value may fail, because of its digits only. -/
theorem printAll_keeps (hA : ∀ e, Operational e → A e) :
    ∀ (es : List Expression) {m : Machine}, Name.Ordinary m.environment →
      Keeps A (fun _ => True) (Node.printAll part (Tree.members (listTree .returns es))) m
  | [], _, hm => .print hm _
  | e :: es, _, hm => by
    rw [Expression.members_listTree_cons]
    unfold Node.printAll
    refine .bind (hpart .expression (.expression e es) hm) fun c m₁ _ hm₁ _ => ?_
    refine .bind (.operation hA hm₁ c.value.print_answers) fun text m₂ _ hm₂ _ => ?_
    exact .bind (.print hm₂ _) fun _ m₃ _ hm₃ _ => printAll_keeps hA es hm₃

/-- A call whose function has as many parameters as there are arguments is not at fault itself. -/
theorem call_keeps (hextends : part.Extends (evaluate .returns n))
    (hm : Name.Ordinary m.environment) (f : Expression) (args rest : List Expression)
    (horigin : ∀ e, Origin e (listTree .returns (.call f args :: rest)) m → A e) :
    Keeps A Completion.Ordinary (step part n (listTree .returns (.call f args :: rest))) m := by
  rw [step_call]
  have hA : ∀ e, Operational e → A e := fun e he => horigin e (.operation _ _ he)
  refine .bind (tree_keeps hpart hm f) fun v m₁ hcallee hm₁ hv => ?_
  refine .bind (.operation hA hm₁ hv.functionParts_answers) ?_
  rintro _ m₂ - hm₂ ⟨xs, ss, more, rfl, rfl⟩
  -- the callee has ended with a function, so that the counts are those of an origin
  have hviolation : xs.length ≠ args.length → A .violation := by
    intro hne
    obtain ⟨⟨_, returning⟩, m₃, hf, hvalue⟩ := Action.bind_eq_ok hcallee
    cases hvalue
    have heval := hextends .statement (f.tree .returns) m (by rw [hf]; simp)
    exact horigin _ (.miscall ⟨by simp, n, heval.trans hf⟩ hne)
  refine .bind (bindArguments_keeps hpart xs args hm₂ hviolation .nil) ?_
  rintro ⟨frame, unused⟩ m₃ - hm₃ ⟨hframe, hunused⟩
  rw [Identifier.terminator_listTree, Expression.terminator_listTree]
  refine .ite (fun h => by cases h) fun _ => .ite (fun hleft => ?_) fun _ => ?_
  · refine .throw hm₃ (hviolation fun hlength => ?_)
    have hnil : unused = [] := hunused hlength
    subst hnil
    cases hleft
  · exact .inFrame hm₃ (hpart .statement (.statement (.block ss)) (hm₃.inside hframe))

/-- Every kind of expression, in a list. The faults that a node has by itself are its origins, so
they have the property `A` by `horigin`. -/
theorem expression_keeps (hextends : part.Extends (evaluate .returns n))
    (hm : Name.Ordinary m.environment) (e : Expression) (rest : List Expression)
    (horigin : ∀ f, Origin f (listTree .returns (e :: rest)) m → A f) :
    Keeps A Completion.Ordinary (step part n (listTree .returns (e :: rest))) m := by
  -- faults of operations may come from any node
  have hA : ∀ f, Operational f → A f := fun f hf => horigin f (.operation _ _ hf)
  cases e with
  | number v =>
    rw [step_number]
    exact .pure hm (Value.ordinary_numeric v)
  | boolean b =>
    rw [step_boolean]
    exact .throw hm (horigin _ (.truth b rest m))
  -- a name is the one leaf that looks at the environment
  | name x =>
    rw [step_name]
    show Keeps A _ (liftM (Name.resolve x.text m.environment) >>= _) m
    have hanswers := hm.resolve_answers x
    cases hresolve : Name.resolve x.text m.environment with
    | ok v =>
      rw [hresolve] at hanswers
      exact .pure hm hanswers
    | error f =>
      rw [hresolve] at hanswers
      obtain rfl | rfl := hanswers
      · exact .throw hm (horigin _ (.unbound hresolve))
      · exact .throw hm (hA _ .wrongType)
  | function xs ss =>
    rw [step_function]
    exact .pure hm (Value.ordinary_function xs ss rest)
  -- operators: the parts first, then an operation on ordinary values
  | negate e =>
    rw [step_negate]
    refine .bind (tree_keeps hpart hm e) fun v m₁ _ hm₁ _ => ?_
    exact .bind (.operation hA hm₁ v.negate_answers) fun _ _ _ hm₂ hw => .pure hm₂ hw
  | not e =>
    rw [step_not]
    exact .bind (tree_keeps hpart hm e) fun _ _ _ hm₁ _ => .pure hm₁ trivial
  | binary op l r =>
    rw [step_binary]
    refine .bind (tree_keeps hpart hm l) fun a m₁ _ hm₁ ha => ?_
    refine .bind (tree_keeps hpart hm₁ r) fun b m₂ _ hm₂ hb => ?_
    exact .bind (.operation hA hm₂ (op.apply_answers ha hb)) fun _ _ _ hm₃ hv => .pure hm₃ hv
  | call f args => exact call_keeps hpart hextends hm f args rest horigin

omit hpart in
/-- Passing on a completion leaves its value ordinary. -/
theorem ordinary_passOn {c : Completion} (h : c.Ordinary) : (passOn c).Ordinary := by
  unfold passOn
  split
  · exact h
  · trivial

theorem passOn_keeps (hm : Name.Ordinary m.environment) (s : Statement) :
    Keeps A Completion.Ordinary (do return passOn (← part .statement (s.tree .returns))) m :=
  .bind (hpart .statement (.statement s) hm) fun _ _ _ hm₁ hc => .pure hm₁ (ordinary_passOn hc)

/-- Every kind of statement. Only an empty block has a fault by itself. -/
theorem statement_keeps (hextends : part.Extends (evaluate .returns n)) (hbudget : A .exhausted)
    (hm : Name.Ordinary m.environment) (s : Statement)
    (horigin : ∀ f, Origin f (s.tree .returns) m → A f) :
    Keeps A Completion.Ordinary (step part n (s.tree .returns)) m := by
  have hA : ∀ f, Operational f → A f := fun f hf => horigin f (.operation _ _ hf)
  match s, horigin with
  | .block [], horigin => exact .throw hm (horigin _ (.emptyBlock m))
  -- blocks, by the number of statements
  | .block [s], _ =>
    rw [Statement.tree, Statement.trees, Statement.trees, step_block_one]
    exact passOn_keeps hpart hm s
  | .block (s :: u :: ss), _ =>
    have hrest : ∀ {m : Machine}, Name.Ordinary m.environment → _ :=
      fun hm => passOn_keeps hpart hm (.block (u :: ss))
    simp only [Statement.tree, Statement.trees] at hrest ⊢
    rw [step_block_next]
    refine .bind (hpart .statement (.statement s) hm) fun first m₁ _ hm₁ hfirst => ?_
    exact .ite (fun _ => .pure hm₁ (ordinary_passOn hfirst)) fun _ => hrest hm₁
  | .branch c s none, _ =>
    rw [Statement.tree, step_branch_none]
    refine .bind (tree_keeps hpart hm c) fun _ m₁ _ hm₁ _ => ?_
    exact .ite (fun _ => passOn_keeps hpart hm₁ s) fun _ => .pure hm₁ trivial
  | .branch c s (some a), _ =>
    rw [Statement.tree, step_branch_some]
    refine .bind (tree_keeps hpart hm c) fun _ m₁ _ hm₁ _ => ?_
    refine .ite (fun _ => passOn_keeps hpart hm₁ s) fun _ => ?_
    exact .ite (fun _ => passOn_keeps hpart hm₁ a) fun _ => .pure hm₁ trivial
  -- a loop may run out of budget between its rounds
  | .loop c s, _ =>
    rw [Statement.tree, step_loop]
    exact .repeatWhile hbudget trivial (fun m hm => hpart .statement (.expression c []) hm)
      (fun m hm => hpart .statement (.statement s) hm) n hm
  -- statements that evaluate one expression, or one after the other
  | .giveBack none, _ =>
    rw [Statement.tree, step_giveBack_none]
    exact .bind (valueOf_keeps hpart hm .null) fun _ _ _ hm₁ hv => .pure hm₁ hv
  | .giveBack (some e), _ =>
    rw [Statement.tree, step_giveBack_some]
    exact .bind (tree_keeps hpart hm e) fun _ _ _ hm₁ hv => .pure hm₁ hv
  | .print es, _ =>
    rw [Statement.tree, step_output]
    exact .bind (printAll_keeps hpart hA es hm) fun _ _ _ hm₁ _ => .pure hm₁ trivial
  | .assign x e, _ =>
    rw [step_assign]
    refine .bind (hpart .expression (.expression e []) hm) fun c m₁ _ hm₁ hc => ?_
    exact .bind (.assign hm₁ (hA _ .wrongType) x hc) fun _ _ _ hm₂ _ => .pure hm₂ trivial
  | .expression e, horigin => exact expression_keeps hpart hextends hm e [] horigin

/-- **A step of the evaluator keeps what its parts keep**, if the faults that come from the node
itself are let pass. -/
theorem step_keeps (hextends : part.Extends (evaluate .returns n)) (hbudget : A .exhausted)
    (hm : Name.Ordinary m.environment) {t : Tree} (ht : t.Runnable)
    (horigin : ∀ f, Origin f t m → A f) : Keeps A Completion.Ordinary (step part n t) m := by
  cases ht with
  | null => exact .pure hm trivial
  | expression e rest => exact expression_keeps hpart hextends hm e rest horigin
  | statement s => exact statement_keeps hpart hextends hbudget hm s horigin

end Step

/-! ## The nodes that an evaluation meets -/

open Classical in
/-- The evaluator, but for nodes with the property: there it stops, as if its budget had run
out. -/
noncomputable def stopping (P : Tree → Machine → Prop) : Nat → Evaluator
  | 0 => fun _ _ => throw .exhausted
  | n + 1 => fun _ t m =>
    if P t m then (.error .exhausted, m) else step (stopping P n) n t m

/-- Evaluating the tree on the machine, with a budget that suffices, comes to a node with the
property. -/
def Meets (P : Tree → Machine → Prop) (n : Nat) (t : Tree) (m : Machine) : Prop :=
  (stopping P n .statement t m).1 = .error .exhausted

section Stopping

variable {P : Tree → Machine → Prop} {n : Nat} {mode : Mode} {t : Tree} {m : Machine}

/-- At a node with the property it stops, -/
theorem stopping_of_pos (h : P t m) : stopping P (n + 1) mode t m = (.error .exhausted, m) :=
  if_pos h

/-- and else does one step, with stops in its parts. -/
theorem stopping_of_neg (h : ¬ P t m) :
    stopping P (n + 1) mode t m = step (stopping P n) n t m :=
  if_neg h

end Stopping

/-- Where it does not stop, the evaluator does the same. -/
theorem stopping_extends (P : Tree → Machine → Prop) :
    ∀ n : Nat, Evaluator.Extends (stopping P n) (evaluate .returns n)
  | 0 => fun _ _ => .of_exhausted _
  | n + 1 => by
    intro mode t m hne
    by_cases hP : P t m
    · rw [stopping_of_pos hP] at hne
      exact absurd rfl hne
    · rw [stopping_of_neg hP] at hne ⊢
      exact step_extends (stopping_extends P n) (Nat.le_refl n) t m hne

/-- **Where the evaluator does not stop, no fault is left that would come from there.** -/
theorem stopping_keeps (P : Tree → Machine → Prop) :
    ∀ (n : Nat) (mode : Mode) {t : Tree} {m : Machine}, t.Runnable →
      Name.Ordinary m.environment →
      Keeps (fun e => e = .exhausted ∨ ∃ t m, Origin e t m ∧ ¬ P t m) Completion.Ordinary
        (stopping P n mode t) m
  | 0, _, _, _, _, hm => .throw hm (.inl rfl)
  | n + 1, _, t, m, ht, hm => by
    by_cases hP : P t m
    · rw [Keeps, stopping_of_pos hP]
      exact ⟨hm, .inl rfl⟩
    · rw [Keeps, stopping_of_neg hP]
      exact step_keeps (stopping_keeps P n) (stopping_extends P n) (.inl rfl) hm ht
        fun e he => .inr ⟨t, m, he, hP⟩

/-- Without stops it is the evaluator. -/
theorem stopping_never (n : Nat) : stopping (fun _ _ => False) n = evaluate .returns n := by
  induction n with
  | zero => rfl
  | succ n ih =>
    funext mode t m
    rw [stopping_of_neg not_false, ih]
    rfl

/-- Evaluating a program keeps an environment ordinary, and its faults have an origin. -/
theorem evaluate_keeps (n : Nat) (mode : Mode) {t : Tree} {m : Machine} (ht : t.Runnable)
    (hm : Name.Ordinary m.environment) :
    Keeps (fun e => e = .exhausted ∨ ∃ t m, Origin e t m) Completion.Ordinary
      (evaluate .returns n mode t) m := by
  rw [← stopping_never]
  obtain ⟨henv, hanswers⟩ := stopping_keeps (fun _ _ => False) n mode ht hm
  refine ⟨henv, hanswers.imp ?_ fun _ h => h⟩
  rintro e (rfl | ⟨t, m, horigin, -⟩)
  · exact .inl rfl
  · exact .inr ⟨t, m, horigin⟩

/-- **A fault comes from a node that the evaluation meets.** -/
theorem meets_origin {n : Nat} {t : Tree} {m m' : Machine} {e : Fault} (ht : t.Runnable)
    (hm : Name.Ordinary m.environment)
    (h : evaluate .returns n .statement t m = (.error e, m')) (hne : e ≠ .exhausted) :
    Meets (Origin e) n t m := by
  by_contra hmeets
  -- an evaluation that comes to no origin of its fault is the same with stops at all of them
  have hstopping := stopping_extends (Origin e) n .statement t m hmeets
  have hkeeps := (stopping_keeps (Origin e) n .statement ht hm).2
  rw [← hstopping, h] at hkeeps
  obtain he | ⟨t', m'', horigin, hnot⟩ := hkeeps
  · exact hne he
  · exact hnot horigin

end Returning

/-! ## Sessions -/

/-- The environments that the texts of a session at the last stage find, whatever the budgets of
those before them. -/
inductive Session.Reachable : Value → Prop
  /-- The first text finds nothing bound. -/
  | start : Reachable (.record [])
  /-- A text finds the environment that the one before it has left, also by a fault. -/
  | next {env : Value} {code : String} {t : Tree} (n : Nat) (printed : String) : Reachable env →
      Program.tree .returns code = .ok t →
      Reachable (evaluate .returns n .statement t ⟨env, printed⟩).2.environment
  /-- In an interactive session it finds the flag that says whether the one before it returned. -/
  | flag {env : Value} {code : String} {t : Tree} {n : Nat} {printed : String} {c : Completion}
      {m : Machine} : Reachable env → Program.tree .returns code = .ok t →
      evaluate .returns n .statement t ⟨env, printed⟩ = (.ok c, m) → Reachable (.bool c.returning)

/-- **Sessions come to reachable environments only.** -/
theorem Program.session_reachable {env : Value} (h : Session.Reachable env) (codes : List String) :
    ∀ answer ∈ Program.session .returns env codes, Session.Reachable answer.2.environment := by
  induction codes generalizing env with
  | nil => simp [Program.session]
  | cons code rest ih =>
    -- one text: it may fail before it is run, and then changes nothing
    have hfirst : Session.Reachable ((Program.run .returns code).run env).2.environment := by
      cases htree : Program.tree .returns code with
      | error e =>
        rw [Program.run, htree]
        exact h
      | ok t =>
        rw [Program.run, htree]
        exact .next Program.budget "" h htree
    intro answer hanswer
    obtain rfl | hanswer := List.mem_cons.1 hanswer
    · exact hfirst
    · exact ih hfirst answer hanswer

theorem Program.tree_runnable {code : String} {t : Tree} (h : Program.tree .returns code = .ok t) :
    t.Runnable := by
  obtain ⟨s, rfl⟩ := Program.tree_image h
  exact .statement s

/-- **What a session reaches is ordinary.** -/
theorem Session.Reachable.ordinary {env : Value} (h : Session.Reachable env) :
    Name.Ordinary env := by
  induction h with
  | start => exact .empty
  | next n printed _ htree ih =>
    exact (Returning.evaluate_keeps n .statement (Program.tree_runnable htree) ih).1
  | flag => exact .flag _

/-- **The faults of a program at the last stage.** In an environment that a session can reach,
whose bindings are numbers, null and functions, the evaluation of a text can fail
- for want of a statement, at a block that has none;
- by an unknown operation, at a truth value;
- by a name that means nothing where it stands;
- by a call with more or fewer arguments than the function has parameters;
- by a value of the wrong type, a division by zero, a number beyond all doubles, a number that is
  no integer, or an integer with too many digits;
and in no other way. -/
theorem evaluate_fault {env : Value} (henv : Session.Reachable env) {code : String} {t : Tree}
    (htree : Program.tree .returns code = .ok t) {n : Nat} {printed : String} {e : Fault}
    {m : Machine} (h : evaluate .returns n .statement t ⟨env, printed⟩ = (.error e, m))
    (hne : e ≠ .exhausted) :
    Name.Ordinary env ∧ Returning.Meets (Returning.Origin e) n t ⟨env, printed⟩ ∧
      (e = .missingField "statement" ∨ e = .unknownOperation (.text "<boolean>") ∨
        (∃ x : Identifier, e = .undefinedName x.text) ∨ e = .violation ∨ e.Operational) := by
  have hm : Name.Ordinary (Machine.mk env printed).environment := henv.ordinary
  have ht := Program.tree_runnable htree
  refine ⟨henv.ordinary, Returning.meets_origin ht hm h hne, ?_⟩
  -- the origin of the fault says which one it is
  have hanswers := (Returning.evaluate_keeps n .statement ht hm).2
  rw [h] at hanswers
  obtain he | ⟨t', m', horigin⟩ := hanswers
  · exact absurd he hne
  · cases horigin with
    | emptyBlock => exact .inl rfl
    | truth => exact .inr (.inl rfl)
    | unbound => exact .inr (.inr (.inl ⟨_, rfl⟩))
    | miscall => exact .inr (.inr (.inr (.inl rfl)))
    | operation _ _ he => exact .inr (.inr (.inr (.inr he)))

/-- A function whose body has no statements, bound to `g`. -/
def hollowEnvironment : Value :=
  .record [("g", Tree.function .null (Tree.block []))]

/-- A call of `g`. -/
def hollowCall : Tree :=
  Tree.call .returns (Tree.leaf .returns "<identifier>" (.text "g")) .null

/-- The call `g()` of a function with an empty body. -/
theorem evaluate_fault_of_hollow :
    Session.Reachable hollowEnvironment ∧ Program.tree .returns "g()" = .ok hollowCall ∧
    evaluate .returns 3 .statement hollowCall ⟨hollowEnvironment, ""⟩ =
      (.error (.missingField "statement"), ⟨hollowEnvironment, ""⟩) ∧
    Name.Ordinary hollowEnvironment ∧
    Returning.Meets (Returning.Origin (.missingField "statement")) 3 hollowCall
      ⟨hollowEnvironment, ""⟩ := by
  have hassign : Program.tree .returns "g = function()\x7b\x7d" = .ok (Tree.assign .returns
      (Tree.leaf .returns "<identifier>" (.text "g"))
      (Tree.function .null (Tree.block []))) := rfl
  have hreachable : Session.Reachable hollowEnvironment := .next 3 "" .start hassign
  have htree : Program.tree .returns "g()" = .ok hollowCall := rfl
  have hrun : evaluate .returns 3 .statement hollowCall ⟨hollowEnvironment, ""⟩ =
      (.error (.missingField "statement"), ⟨hollowEnvironment, ""⟩) := rfl
  have hfault := evaluate_fault hreachable htree hrun (by simp)
  exact ⟨hreachable, htree, hrun, hfault.1, hfault.2.1⟩

end Stepwise
