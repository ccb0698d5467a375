import Stepwise.Expectation

/-!
# Exercises

An exercise tries the library out on small examples. It is an action: it prints
what it is about, and fails where an example does not come out as it should.
-/

namespace Stepwise

/-- A named exercise. -/
structure Exercise where
  title : String
  run : Action Unit

namespace Exercise

/-- An exercise that starts with a line of text. -/
def announced (title line : String) (body : Action Unit) : Exercise where
  title := title
  run := do
    Action.printLine line
    body

/-- The condition has to hold. -/
def expect (condition : Bool) : Action Unit :=
  if condition then pure () else throw .violation

/-- A text between braces. -/
def braced (s : String) : String :=
  "\x7b" ++ s ++ "\x7d"

/-- Runs an action for each item. -/
def forEach {α : Type} (items : List α) (body : α → Action Unit) : Action Unit :=
  match items with
  | [] => pure ()
  | a :: rest => do
    body a
    forEach rest body

/-- The exercise ends without a fault. -/
def passes (e : Exercise) : Bool :=
  match e.run.run (.record []) with
  | (.ok _, _) => true
  | (.error _, _) => false

end Exercise

end Stepwise
