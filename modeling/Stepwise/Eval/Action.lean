import Stepwise.Value.Compare

/-!
# Actions

A running program has an environment and has printed some text; an action reads
and changes the two and gives a result or fails. What was assigned and printed
before a fault stays: an action always gives back the machine.

- `assign`, `print`: the two effects.
- `inFrame`: runs an action in another environment, and comes back to the first
  one whether the action fails or not.
-/

namespace Stepwise

/-- The state of a running program. -/
structure Machine where
  environment : Value
  printed : String

/-- A step that may fail, with its effect on the machine. -/
def Action (α : Type) : Type :=
  Machine → Except Fault α × Machine

namespace Action

/-- The action that only gives a result. -/
@[inline] protected def pure {α : Type} (a : α) : Action α :=
  fun m => (.ok a, m)

/-- One action after another; a fault of the first is the fault of both. -/
@[inline] protected def bind {α β : Type} (x : Action α) (f : α → Action β) : Action β :=
  fun m =>
    match x m with
    | (.ok a, m) => f a m
    | (.error e, m) => (.error e, m)

instance : Monad Action where
  pure := Action.pure
  bind := Action.bind

/-- The action that fails. -/
@[inline] def fail {α : Type} (e : Fault) : Action α :=
  fun m => (.error e, m)

/-- Runs the handler after a fault, in the state that the fault left. -/
def handle {α : Type} (x : Action α) (handler : Fault → Action α) : Action α :=
  fun m =>
    match x m with
    | (.ok a, m) => (.ok a, m)
    | (.error e, m) => handler e m

instance : MonadExceptOf Fault Action where
  throw := fail
  tryCatch := handle

/-- A computation without effect. -/
@[inline] def lift {α : Type} (x : Except Fault α) : Action α :=
  fun m => (x, m)

instance : MonadLift (Except Fault) Action := ⟨lift⟩

/-- The environment of the running program. -/
def environment : Action Value :=
  fun m => (.ok m.environment, m)

/-- Replaces the environment. -/
def setEnvironment (env : Value) : Action Unit :=
  fun m => (.ok (), ⟨env, m.printed⟩)

/-- Prints a text as it is. -/
def print (s : String) : Action Unit :=
  fun m => (.ok (), ⟨m.environment, m.printed ++ s⟩)

/-- Prints a text and a line end. -/
def printLine (s : String) : Action Unit :=
  print (s ++ "\n")

/-- Binds a name in the environment, which has to be a record. -/
def assign (name value : Value) : Action Unit := do
  match ← environment with
  | .record fields => setEnvironment (.record (← Fields.bind name value fields))
  | _ => throw .wrongType

/-- Runs an action in another environment and comes back, also after a fault. -/
def inFrame {α : Type} (frame : Value) (x : Action α) : Action α :=
  fun m =>
    match x ⟨frame, m.printed⟩ with
    | (r, after) => (r, ⟨m.environment, after.printed⟩)

/-- Runs an action on a fresh machine. -/
def run {α : Type} (x : Action α) (env : Value) : Except Fault α × Machine :=
  x ⟨env, ""⟩

/-! ## Small facts -/

@[simp] theorem pure_apply {α : Type} (a : α) (m : Machine) :
    (pure a : Action α) m = (.ok a, m) := rfl

@[simp] theorem throw_apply {α : Type} (e : Fault) (m : Machine) :
    (throw e : Action α) m = (.error e, m) := rfl

@[simp] theorem lift_apply {α : Type} (x : Except Fault α) (m : Machine) :
    lift x m = (x, m) := rfl

/-- What follows an action runs on the machine that the action left. -/
theorem bind_ok {α β : Type} {x : Action α} {m m' : Machine} {a : α} (f : α → Action β)
    (h : x m = (.ok a, m')) : (x >>= f) m = f a m' := by
  show Action.bind x f m = f a m'
  simp [Action.bind, h]

/-- A fault ends what follows, and keeps the machine that it left. -/
theorem bind_error {α β : Type} {x : Action α} {m m' : Machine} {e : Fault} (f : α → Action β)
    (h : x m = (.error e, m')) : (x >>= f) m = (.error e, m') := by
  show Action.bind x f m = (.error e, m')
  simp [Action.bind, h]

theorem handle_ok {α : Type} {x : Action α} {m m' : Machine} {a : α} (handler : Fault → Action α)
    (h : x m = (.ok a, m')) : handle x handler m = (.ok a, m') := by
  simp [handle, h]

/-- The handler runs on the machine that the fault left. -/
theorem handle_error {α : Type} {x : Action α} {m m' : Machine} {e : Fault}
    (handler : Fault → Action α) (h : x m = (.error e, m')) :
    handle x handler m = handler e m' := by
  simp [handle, h]

/-- Binding a name where the environment is a record. -/
theorem assign_record (name value : Value) (fields : Fields) (printed : String) :
    assign name value ⟨.record fields, printed⟩ = match Fields.bind name value fields with
      | .ok bound => (.ok (), ⟨.record bound, printed⟩)
      | .error e => (.error e, ⟨.record fields, printed⟩) := by
  show (lift (Fields.bind name value fields) >>= fun bound => setEnvironment (.record bound)) _ = _
  cases h : Fields.bind name value fields with
  | ok bound => exact bind_ok _ (lift_apply _ _)
  | error e => exact bind_error _ (lift_apply _ _)

instance : LawfulMonad Action :=
  LawfulMonad.mk' Action
    (fun x => by
      funext m
      show Action.bind x (fun a => Action.pure a) m = x m
      unfold Action.bind
      split <;> simp_all [Action.pure])
    (fun _ _ => rfl)
    (fun x f g => by
      funext m
      show Action.bind (Action.bind x f) g m = Action.bind x (fun a => Action.bind (f a) g) m
      unfold Action.bind
      cases x m with
      | mk r m' => cases r <;> rfl)

end Action

end Stepwise
