import Stepwise.Stage
import Stepwise.Value.Arithmetic

/-!
# Operators

What the tag of an operator node does to the values of its operands. Comparisons
give 1 or 0; `&&` and `||` give the operand that decides, as an integer.
-/

namespace Stepwise.Operation

/-- Arithmetic, known to every stage. -/
def arithmetic? : String → Option (Value → Value → Except Fault Value)
  | "+" => some Value.add
  | "-" => some Value.subtract
  | "*" => some Value.multiply
  | "/" => some Value.divide
  | _ => none

/-- An order relation with its truth as a number. -/
def relation (r : Relation) (a b : Value) : Except Fault Value :=
  return Value.ofTruth (← a.relate r b)

/-- The second operand if the first is true, else the first. -/
def conjunction (a b : Value) : Except Fault Value :=
  return .int (← (if a.truthy then b else a).toInteger)

/-- The first operand if it is true, else the second. -/
def disjunction (a b : Value) : Except Fault Value :=
  return .int (← (if a.truthy then a else b).toInteger)

/-- Comparisons and logical operators, known from `booleans` on. -/
def logical? : String → Option (Value → Value → Except Fault Value)
  | "<" => some (relation .less)
  | ">" => some (relation .greater)
  | "<=" => some (relation .lessEqual)
  | ">=" => some (relation .greaterEqual)
  | "==" => some fun a b => .ok (Value.ofTruth (a.equal b))
  | "!=" => some fun a b => .ok (Value.ofTruth (!a.equal b))
  | "&&" => some conjunction
  | "||" => some disjunction
  | _ => none

/-- The operation of an operator's tag. -/
def find? (st : Stage) : Value → Option (Value → Value → Except Fault Value)
  | .text tag =>
    match arithmetic? tag with
    | some op => some op
    | none => if st.has .booleans then logical? tag else none
  | _ => none

/-- Logical negation: 0 for a true value, 1 for a false one. -/
def invert (v : Value) : Value :=
  Value.ofTruth (!v.truthy)

end Stepwise.Operation
