import Stepwise.Proofs.Endings

/-!
# A reference semantics for `return`

A statement ends normally or returns a value; a block stops at the first of its
statements that returns, an `if` ends as the branch taken does, a `while` repeats
until its condition fails or its body returns, and a call has the value that the
body of its function returns, null if there is none. `Executes` and `Evaluates` say
this as big-step rules, without flags and without budgets. `Evaluates` has the
other expressions of a list at hand, as the value of a function does.

One thing is left open: how a block ends that has no statements. `empty` is its
outcome; with `.ok .normal` the rules say what is meant, and with a fault they can
say what an evaluator does that finds no statement to begin with.
-/

namespace Stepwise

namespace Reference

open Expression (listTree)

mutual

/-- The expression, with others behind it in a list, has a result and leaves a machine. -/
inductive Evaluates (empty : Except Fault Ending) :
    Expression → List Expression → Machine → Except Fault Value → Machine → Prop where
  | number (v : Numeric) (rest : List Expression) (m : Machine) :
    Evaluates empty (.number v) rest m (.ok v.value) m
  | boolean (b : Bool) (rest : List Expression) (m : Machine) :
    Evaluates empty (.boolean b) rest m (.error (.unknownOperation (.text "<boolean>"))) m
  | name (x : Identifier) (rest : List Expression) (m : Machine) :
    Evaluates empty (.name x) rest m (Name.resolve x.text m.environment) m
  | function (xs : List Identifier) (ss : List Statement) (rest : List Expression) (m : Machine) :
    Evaluates empty (.function xs ss) rest m
      (.ok (listTree .returns (.function xs ss :: rest))) m
  | negate {e : Expression} {rest : List Expression} {m m' : Machine} {r : Except Fault Value} :
    Evaluates empty e [] m r m' →
    Evaluates empty (.negate e) rest m (r.bind Value.negate) m'
  | not {e : Expression} {rest : List Expression} {m m' : Machine} {r : Except Fault Value} :
    Evaluates empty e [] m r m' →
    Evaluates empty (.not e) rest m (r.map Operation.invert) m'
  | binary {op : Operator} {e₁ e₂ : Expression} {rest : List Expression} {m m₁ m₂ : Machine}
      {a : Value} {r : Except Fault Value} :
    Evaluates empty e₁ [] m (.ok a) m₁ →
    Evaluates empty e₂ [] m₁ r m₂ →
    Evaluates empty (.binary op e₁ e₂) rest m (r.bind (op.apply a)) m₂
  | leftFault {op : Operator} {e₁ e₂ : Expression} {rest : List Expression} {m m₁ : Machine}
      {f : Fault} :
    Evaluates empty e₁ [] m (.error f) m₁ →
    Evaluates empty (.binary op e₁ e₂) rest m (.error f) m₁
  | calleeFault {e : Expression} {es rest : List Expression} {m m₁ : Machine}
      {r : Except Fault Value} {f : Fault} :
    Evaluates empty e [] m r m₁ →
    r.bind Node.functionParts = .error f →
    Evaluates empty (.call e es) rest m (.error f) m₁
  | argumentFault {e : Expression} {es rest : List Expression} {m m₁ m₂ : Machine} {v : Value}
      {xs : List Identifier} {ss : List Statement} {f : Fault} :
    Evaluates empty e [] m (.ok v) m₁ →
    Node.functionParts v =
      .ok (Identifier.listTree .returns xs, (Statement.block ss).tree .returns) →
    Binds empty [] xs es m₁ (.error f) m₂ →
    Evaluates empty (.call e es) rest m (.error f) m₂
  | call {e : Expression} {es rest : List Expression} {m m₁ m₂ m₃ : Machine} {v : Value}
      {xs : List Identifier} {ss : List Statement} {frame : Fields} {o : Except Fault Ending} :
    Evaluates empty e [] m (.ok v) m₁ →
    Node.functionParts v =
      .ok (Identifier.listTree .returns xs, (Statement.block ss).tree .returns) →
    Binds empty [] xs es m₁ (.ok frame) m₂ →
    Executes empty (.block ss)
      ⟨.record (Fields.set Name.parentField m₂.environment frame), m₂.printed⟩ o m₃ →
    Evaluates empty (.call e es) rest m (o.map Ending.value) ⟨m₂.environment, m₃.printed⟩

/-- The parameters are bound, in a frame, to the values of the arguments. -/
inductive Binds (empty : Except Fault Ending) :
    Fields → List Identifier → List Expression → Machine → Except Fault Fields → Machine →
      Prop where
  | done (frame : Fields) (m : Machine) : Binds empty frame [] [] m (.ok frame) m
  | tooMany (frame : Fields) (e : Expression) (es : List Expression) (m : Machine) :
    Binds empty frame [] (e :: es) m (.error .violation) m
  | tooFew (frame : Fields) (x : Identifier) (xs : List Identifier) (m : Machine) :
    Binds empty frame (x :: xs) [] m (.error .violation) m
  | fault {frame : Fields} {x : Identifier} {xs : List Identifier} {e : Expression}
      {es : List Expression} {m m₁ : Machine} {f : Fault} :
    Evaluates empty e es m (.error f) m₁ →
    Binds empty frame (x :: xs) (e :: es) m (.error f) m₁
  | next {frame : Fields} {x : Identifier} {xs : List Identifier} {e : Expression}
      {es : List Expression} {m m₁ m₂ : Machine} {v : Value} {r : Except Fault Fields} :
    Evaluates empty e es m (.ok v) m₁ →
    Binds empty (Fields.set x.text v frame) xs es m₁ r m₂ →
    Binds empty frame (x :: xs) (e :: es) m r m₂

/-- The expressions are printed, a space behind each, and a line end. -/
inductive Prints (empty : Except Fault Ending) :
    List Expression → Machine → Except Fault Unit → Machine → Prop where
  | done (m : Machine) : Prints empty [] m (.ok ()) ⟨m.environment, m.printed ++ "\n"⟩
  | fault {e : Expression} {es : List Expression} {m m₁ : Machine} {r : Except Fault Value}
      {f : Fault} :
    Evaluates empty e es m r m₁ →
    r.bind Value.print = .error f →
    Prints empty (e :: es) m (.error f) m₁
  | next {e : Expression} {es : List Expression} {m m₁ m₂ : Machine} {v : Value} {s : String}
      {r : Except Fault Unit} :
    Evaluates empty e es m (.ok v) m₁ →
    v.print = .ok s →
    Prints empty es ⟨m₁.environment, m₁.printed ++ (s ++ " ")⟩ r m₂ →
    Prints empty (e :: es) m r m₂

/-- The statement has an ending, or a fault, and leaves a machine. -/
inductive Executes (empty : Except Fault Ending) :
    Statement → Machine → Except Fault Ending → Machine → Prop where
  | emptyBlock (m : Machine) : Executes empty (.block []) m empty m
  | block {s : Statement} {ss : List Statement} {m m' : Machine} {o : Except Fault Ending} :
    ExecutesAll empty (s :: ss) m o m' →
    Executes empty (.block (s :: ss)) m o m'
  | branchFault {c : Expression} {s : Statement} {a : Option Statement} {m m₁ : Machine}
      {f : Fault} :
    Evaluates empty c [] m (.error f) m₁ →
    Executes empty (.branch c s a) m (.error f) m₁
  | branchTrue {c : Expression} {s : Statement} {a : Option Statement} {m m₁ m₂ : Machine}
      {v : Value} {o : Except Fault Ending} :
    Evaluates empty c [] m (.ok v) m₁ → v.truthy = true →
    Executes empty s m₁ o m₂ →
    Executes empty (.branch c s a) m o m₂
  | branchFalse {c : Expression} {s a : Statement} {m m₁ m₂ : Machine} {v : Value}
      {o : Except Fault Ending} :
    Evaluates empty c [] m (.ok v) m₁ → v.truthy = false →
    Executes empty a m₁ o m₂ →
    Executes empty (.branch c s (some a)) m o m₂
  | branchNone {c : Expression} {s : Statement} {m m₁ : Machine} {v : Value} :
    Evaluates empty c [] m (.ok v) m₁ → v.truthy = false →
    Executes empty (.branch c s none) m (.ok .normal) m₁
  | loopFault {c : Expression} {s : Statement} {m m₁ : Machine} {f : Fault} :
    Evaluates empty c [] m (.error f) m₁ →
    Executes empty (.loop c s) m (.error f) m₁
  | loopDone {c : Expression} {s : Statement} {m m₁ : Machine} {v : Value} :
    Evaluates empty c [] m (.ok v) m₁ → v.truthy = false →
    Executes empty (.loop c s) m (.ok .normal) m₁
  | loopStop {c : Expression} {s : Statement} {m m₁ m₂ : Machine} {v : Value}
      {o : Except Fault Ending} :
    Evaluates empty c [] m (.ok v) m₁ → v.truthy = true →
    Executes empty s m₁ o m₂ → o ≠ .ok .normal →
    Executes empty (.loop c s) m o m₂
  | loopNext {c : Expression} {s : Statement} {m m₁ m₂ m₃ : Machine} {v : Value}
      {o : Except Fault Ending} :
    Evaluates empty c [] m (.ok v) m₁ → v.truthy = true →
    Executes empty s m₁ (.ok .normal) m₂ →
    Executes empty (.loop c s) m₂ o m₃ →
    Executes empty (.loop c s) m o m₃
  | giveBackNone (m : Machine) : Executes empty (.giveBack none) m (.ok (.returned .null)) m
  | giveBackSome {e : Expression} {m m' : Machine} {r : Except Fault Value} :
    Evaluates empty e [] m r m' →
    Executes empty (.giveBack (some e)) m (r.map Ending.returned) m'
  | print {es : List Expression} {m m' : Machine} {r : Except Fault Unit} :
    Prints empty es m r m' →
    Executes empty (.print es) m (r.map fun _ => .normal) m'
  | assign {x : Identifier} {e : Expression} {m m₁ m₂ : Machine} {v : Value}
      {r : Except Fault Unit} :
    Evaluates empty e [] m (.ok v) m₁ →
    Action.assign (.text x.text) v m₁ = (r, m₂) →
    Executes empty (.assign x e) m (r.map fun _ => .normal) m₂
  | assignFault {x : Identifier} {e : Expression} {m m₁ : Machine} {f : Fault} :
    Evaluates empty e [] m (.error f) m₁ →
    Executes empty (.assign x e) m (.error f) m₁
  | expression {e : Expression} {m m' : Machine} {r : Except Fault Value} :
    Evaluates empty e [] m r m' →
    Executes empty (.expression e) m (r.map fun _ => .normal) m'

/-- The statements are executed in order, up to the first that does not end normally. -/
inductive ExecutesAll (empty : Except Fault Ending) :
    List Statement → Machine → Except Fault Ending → Machine → Prop where
  | done (m : Machine) : ExecutesAll empty [] m (.ok .normal) m
  | stop {s : Statement} {ss : List Statement} {m m' : Machine} {o : Except Fault Ending} :
    Executes empty s m o m' → o ≠ .ok .normal →
    ExecutesAll empty (s :: ss) m o m'
  | next {s : Statement} {ss : List Statement} {m m₁ m₂ : Machine} {o : Except Fault Ending} :
    Executes empty s m (.ok .normal) m₁ →
    ExecutesAll empty ss m₁ o m₂ →
    ExecutesAll empty (s :: ss) m o m₂

end

end Reference

end Stepwise
